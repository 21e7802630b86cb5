import DwarfExpr.Lib.CellHeap
import DwarfExpr.Lib.Fuel
import DwarfExpr.SearcherSound
import DwarfExpr.SearcherCycle

/-!
# The handles of the search

libdwarf allocates a handle for every DIE that it is asked for, and whoever has asked for it is
to deallocate it. The search deallocates the handle of a first child when it comes back from
it, unless it is the one to be given out, and that of the unit DIE unless the unit has the
function. It deallocates no sibling: the test in front of that looks at `child`, which is null
by then, as is `func_die`.
-/

namespace DwarfExpr

/-- A `Dwarf_Die`. -/
abbrev DieHandle := ℕ

/-- What libdwarf answers for a handle: the DIE, and what its two links lead to. -/
structure DieRecord where
  die : DwarfDie
  children : DieForest
  siblings : DieForest
  deriving DecidableEq, Repr

/-- What is seen from the DIE of a handle on. -/
def DieRecord.forest (record : DieRecord) : DieForest :=
  .node record.die record.children record.siblings

/-- The handles that libdwarf has allocated. -/
abbrev DieHeap := CellHeap DieRecord

/-- What leaves a run with handles undefined. -/
inductive HandleFault where
  /-- A call is given a handle that has been deallocated, or that is none. -/
  | notLive
  deriving DecidableEq, Repr

/-- The answer for a link: a new handle if it leads to a DIE. -/
def followLink (h : DieHeap) : DieForest → Dlv DieHandle × DieHeap
  | .absent => (.noEntry, h)
  | .unreadable => (.error, h)
  | .node die children siblings =>
    (.ok (h.alloc ⟨die, children, siblings⟩).1, (h.alloc ⟨die, children, siblings⟩).2)

/-- `dwarf_child`. -/
def dwarfChild (h : DieHeap) (p : DieHandle) :
    Fuel.Bounded HandleFault (Dlv DieHandle × DieHeap) :=
  match h.get p with
  | some record => some (.ok (followLink h record.children))
  | none => some (.error .notLive)

/-- `dwarf_siblingof_b`. -/
def dwarfSiblingof (h : DieHeap) (p : DieHandle) :
    Fuel.Bounded HandleFault (Dlv DieHandle × DieHeap) :=
  match h.get p with
  | some record => some (.ok (followLink h record.siblings))
  | none => some (.error .notLive)

/-- `dwarf_dealloc` of a DIE. -/
def dwarfDealloc (h : DieHeap) (p : DieHandle) : Fuel.Bounded HandleFault DieHeap :=
  match h.free p with
  | some h => some (.ok h)
  | none => some (.error .notLive)

/-- The part of `DwarfCUContext` that the search reads and writes, with its handles. -/
structure CuHandles where
  targetPc : DwarfAddr
  cuDie : DieHandle
  funcDie : Option DieHandle
  inLevel : ℤ
  deriving DecidableEq, Repr

/-- The context without handles, while there is no function. -/
def CuHandles.plain (ctx : CuHandles) : DwarfCUContext := ⟨ctx.targetPc, none, ctx.inLevel⟩

/-- `child != ctx->cu_die && child != ctx->func_die`, for a handle or a null pointer. -/
def CuHandles.isSpare (ctx : CuHandles) (child : Option DieHandle) : Bool :=
  child ≠ some ctx.cuDie && child ≠ ctx.funcDie

/-- `DwarfSearcher::searchInDie` on a handle. -/
def searchInDieAt (ctx : CuHandles) (inDie : DieHandle) (h : DieHeap) :
    Fuel.Bounded HandleFault (SearchRes × CuHandles) :=
  match h.get inDie with
  | none => some (.error .notLive)
  | some record =>
    match (searchInDie ctx.plain record.die).1 with
    | .foundSubprog => some (.ok (.foundSubprog, { ctx with funcDie := some inDie }))
    | res => some (.ok (res, ctx))

/-- How a search below a handle ends. -/
structure TreeSearch where
  res : SearchRes
  ctx : CuHandles
  heap : DieHeap

/-- A loop over a level, from `in_die` and `cur_die`. -/
abbrev LevelLoop := CuHandles → DieHandle → DieHandle → DieHeap →
  Fuel.Bounded HandleFault TreeSearch

/-- `DwarfSearcher::searchInDieTree`, up to its loop. -/
def searchInDieTreeAt (level : LevelLoop) (ctx : CuHandles) (inDie : DieHandle) (h : DieHeap) :
    Fuel.Bounded HandleFault TreeSearch :=
  (searchInDieAt ctx inDie h).andThen fun (res, ctx) =>
    match res with
    | .error | .noEntry | .notThisCu | .foundSubprog => some (.ok ⟨res, ctx, h⟩)
    | _ => level ctx inDie inDie h

/-- The second part of the loop body: on to the next sibling. -/
def searchSiblingAt (level : LevelLoop) (child : Option DieHandle) (ctx : CuHandles)
    (inDie curDie : DieHandle) (h : DieHeap) : Fuel.Bounded HandleFault TreeSearch :=
  (dwarfSiblingof h curDie).andThen fun (answer, h) =>
    match answer with
    | .error => some (.ok ⟨.error, ctx, h⟩)
    | .noEntry => some (.ok ⟨.ok, { ctx with inLevel := ctx.inLevel - 1 }, h⟩)
    | .ok sibDie =>
      (if curDie ≠ inDie ∧ ctx.isSpare child = true then dwarfDealloc h curDie
        else some (.ok h)).andThen fun h =>
        (searchInDieAt ctx sibDie h).andThen fun (res, ctx) =>
          match res with
          | .error | .foundSubprog => some (.ok ⟨res, ctx, h⟩)
          | _ => level ctx inDie sibDie h

/-- The first part of the loop body: the recursive call on a first child, and what becomes of
the handle of the child. -/
def searchChildAt (level : LevelLoop) (ctx : CuHandles) (child : DieHandle) (h : DieHeap) :
    Fuel.Bounded HandleFault TreeSearch :=
  (searchInDieTreeAt level { ctx with inLevel := ctx.inLevel + 1 } child h).andThen fun s =>
    (if s.ctx.isSpare (some child) = true then dwarfDealloc s.heap child
      else some (.ok s.heap)).andThen fun h => some (.ok ⟨s.res, s.ctx, h⟩)

/-- The loop of `searchInDieTree`. In its second part `child` is null: it is so from the start,
and again after each first child. -/
def searchLevelAt : ℕ → LevelLoop
  | 0, _, _, _, _ => none
  | fuel + 1, ctx, inDie, curDie, h =>
    (dwarfChild h curDie).andThen fun (answer, h) =>
      match answer with
      | .error => some (.ok ⟨.error, ctx, h⟩)
      | .noEntry => searchSiblingAt (searchLevelAt fuel) none ctx inDie curDie h
      | .ok child =>
        (searchChildAt (searchLevelAt fuel) ctx child h).andThen fun s =>
          match s.res with
          | .foundSubprog | .notThisCu | .error => some (.ok s)
          | _ => searchSiblingAt (searchLevelAt fuel) none s.ctx inDie curDie s.heap

/-- `DwarfCUContext::~DwarfCUContext`. -/
def CuHandles.destroy (ctx : CuHandles) (h : DieHeap) : Fuel.Bounded HandleFault DieHeap :=
  (dwarfDealloc h ctx.cuDie).andThen fun h =>
    match ctx.funcDie with
    | none => some (.ok h)
    | some funcDie => dwarfDealloc h funcDie

/-- `*out_cu_die` and `*out_func_die` of a successful search. -/
structure FoundHandles where
  cuDie : DieHandle
  funcDie : Option DieHandle
  deriving DecidableEq, Repr

/-- The loop of `searchFunction` over the units that are still to come. -/
def searchUnitsAt (fuel : ℕ) (pc : DwarfAddr) : List CompileUnit → CuCursor → DieHeap →
    Fuel.Bounded HandleFault (Option FoundHandles × CuCursor × DieHeap)
  | [], _, h => some (.ok (none, 0, h))
  | u :: rest, cursor, h =>
    let cuDie := (h.alloc ⟨u.cuDie, u.children, .absent⟩).1
    (searchInDieTreeAt (searchLevelAt fuel) ⟨pc, cuDie, none, 0⟩ cuDie
      (h.alloc ⟨u.cuDie, u.children, .absent⟩).2).andThen fun s =>
      match s.res with
      -- The handles are given out: the context has none left for its destructor.
      | .foundSubprog => some (.ok (some ⟨s.ctx.cuDie, s.ctx.funcDie⟩, cursor + 1, s.heap))
      | .inThisCu | .error =>
        (s.ctx.destroy s.heap).andThen fun h => some (.ok (none, cursor + 1, h))
      | _ => (s.ctx.destroy s.heap).andThen fun h => searchUnitsAt fuel pc rest (cursor + 1) h

/-- `DwarfSearcher::searchFunction` with handles. -/
def searchFunctionAt (fuel : ℕ) (units : List CompileUnit) (cursor : CuCursor) (pc : DwarfAddr)
    (h : DieHeap) : Fuel.Bounded HandleFault (Option FoundHandles × CuCursor × DieHeap) :=
  searchUnitsAt fuel pc (units.drop cursor) cursor h

/-- The search of one DIE finds it, or leaves the context alone. -/
theorem searchInDie_cases (ctx : DwarfCUContext) (die : DwarfDie) :
    ((searchInDie ctx die).1 = .foundSubprog ∧ (searchInDie ctx die).2.funcDie = some die) ∨
      ((searchInDie ctx die).1 ≠ .foundSubprog ∧ (searchInDie ctx die).2 = ctx) := by
  have hmatch : ((matchFuncDie ctx die).1 = .foundSubprog ∧
      (matchFuncDie ctx die).2.funcDie = some die) ∨
        ((matchFuncDie ctx die).1 ≠ .foundSubprog ∧ (matchFuncDie ctx die).2 = ctx) := by
    unfold matchFuncDie
    cases getLowAndHighPc die with
    | none => simp
    | some range =>
      by_cases hout : (ctx.targetPc < range.1 || range.2 ≤ ctx.targetPc) = true <;> simp [hout]
  have hunit := matchCUDie_ne_foundSubprog ctx die
  unfold searchInDie
  cases die.tag with
  | noEntry | error => simp
  | ok tag =>
    cases tag with
    | subprogram | inlinedSubroutine => exact hmatch
    | compileUnit | partialUnit | typeUnit =>
      by_cases hlevel : ctx.inLevel ≠ 0 <;> simp [hlevel, hunit]
    | _ => simp

/-- The handles that are left behind when a first child has been searched itself: its own if it
is the function, or those of the level. -/
def leftEntered (level : DwarfCUContext → ℕ) : SearchRes × DwarfCUContext → ℕ
  | (.foundSubprog, _) => 1
  | (.error, _) | (.noEntry, _) | (.notThisCu, _) => 0
  | (_, ctx) => level ctx

/-- The handles that are left behind by the call on a first child. -/
def leftBelow (level : DwarfCUContext → ℕ) (ctx : DwarfCUContext) : DieForest → ℕ
  | .node child _ _ =>
    leftEntered level (searchInDie { ctx with inLevel := ctx.inLevel + 1 } child)
  | _ => 0

/-- The handles that are left behind from the next sibling on: that of the sibling, and those
of the level from it on. -/
def leftBeside (level : DwarfCUContext → ℕ) (ctx : DwarfCUContext) : DieForest → ℕ
  | .node sib _ _ =>
    match searchInDie ctx sib with
    | (.error, _) | (.foundSubprog, _) => 1
    | (_, ctx) => 1 + level ctx
  | _ => 0

/-- The handles that the loop over a level leaves behind. -/
def leftLevel (ctx : DwarfCUContext) : DieForest → ℕ
  | .node _ children siblings =>
    leftBelow (fun ctx => leftLevel ctx children) ctx children +
      match searchChildren (fun ctx => searchLevel ctx children) ctx children with
      | (.foundSubprog, _) | (.notThisCu, _) | (.error, _) => 0
      | (_, ctx) => leftBeside (fun ctx => leftLevel ctx siblings) ctx siblings
  | _ => 0

/-- A search with handles has gone as the one without. It keeps the handles that there were and
leaves some more behind, among them that of the function if there is one. -/
structure SearchedAs (h : DieHeap) (cuDie : DieHandle) (f : DieForest)
    (plain : SearchRes × DwarfCUContext) (left : ℕ) (s : TreeSearch) : Prop where
  res : s.res = plain.1
  cuDie : s.ctx.cuDie = cuDie
  keeps : h.Keeps s.heap
  live : s.heap.live = h.live + left
  function : (s.res ≠ .foundSubprog ∧ s.ctx.funcDie = none ∧ plain.2 = s.ctx.plain) ∨
    (s.res = .foundSubprog ∧ ∃ q record, s.ctx.funcDie = some q ∧ h.get q = none ∧
      s.heap.get q = some record ∧ plain.2.funcDie = some record.die ∧ f.Sees record.forest)

/-- The loop over a level, from handles of it, goes as the one without handles. -/
def LevelAs (level : LevelLoop) (f : DieForest) : Prop :=
  ∀ (ctx : CuHandles) (inDie curDie : DieHandle) (h : DieHeap) (record : DieRecord),
    h.get curDie = some record → record.forest = f → ctx.funcDie = none →
      (h.get ctx.cuDie).isSome → ∃ s, level ctx inDie curDie h = some (.ok s) ∧
        SearchedAs h ctx.cuDie f (searchLevel ctx.plain f) (leftLevel ctx.plain f) s

/-- The search of one DIE through its handle. -/
theorem searchInDieAt_eq {ctx : CuHandles} {inDie : DieHandle} {h : DieHeap}
    {record : DieRecord} (hrecord : h.get inDie = some record) :
    searchInDieAt ctx inDie h = some (.ok ((searchInDie ctx.plain record.die).1,
      if (searchInDie ctx.plain record.die).1 = .foundSubprog then
        { ctx with funcDie := some inDie } else ctx)) := by
  simp only [searchInDieAt, hrecord]
  cases (searchInDie ctx.plain record.die).1 <;> simp

section Search

variable {level : LevelLoop} {f : DieForest} {ctx : CuHandles} {h h₀ h₁ : DieHeap}
  {record : DieRecord} {inDie curDie child cuDie : DieHandle}
  {plain : SearchRes × DwarfCUContext} {left : ℕ}

/-- The search from a handle on finds its DIE, stops there, or goes on to the level. -/
theorem searchInDieTreeAt_cases (level : LevelLoop) (hrecord : h.get inDie = some record) :
    (searchInDieTreeAt level ctx inDie h =
        some (.ok ⟨.foundSubprog, { ctx with funcDie := some inDie }, h⟩) ∧
      ∃ plain, searchInDie ctx.plain record.die = (.foundSubprog, plain) ∧
        plain.funcDie = some record.die) ∨
    (∃ res, (res = .error ∨ res = .noEntry ∨ res = .notThisCu) ∧
      searchInDieTreeAt level ctx inDie h = some (.ok ⟨res, ctx, h⟩) ∧
      searchInDie ctx.plain record.die = (res, ctx.plain)) ∨
    ∃ res, (res = .ok ∨ res = .inThisCu) ∧
      searchInDieTreeAt level ctx inDie h = level ctx inDie inDie h ∧
      searchInDie ctx.plain record.die = (res, ctx.plain) := by
  simp only [searchInDieTreeAt, searchInDieAt_eq hrecord, Fuel.Bounded.andThen_ok]
  rcases searchInDie_cases ctx.plain record.die with ⟨hres, hdie⟩ | ⟨hres, hsame⟩
  · generalize searchInDie ctx.plain record.die = answer at hres hdie ⊢
    obtain ⟨res, plain⟩ := answer
    obtain rfl : res = .foundSubprog := hres
    exact Or.inl ⟨by simp, plain, rfl, hdie⟩
  · generalize searchInDie ctx.plain record.die = answer at hres hsame ⊢
    obtain ⟨res, plain⟩ := answer
    obtain rfl : plain = ctx.plain := hsame
    cases res with
    | foundSubprog => exact absurd rfl hres
    | ok | inThisCu => exact Or.inr (Or.inr ⟨_, by simp, by simp, rfl⟩)
    | error | noEntry | notThisCu => exact Or.inr (Or.inl ⟨_, by simp, by simp, rfl⟩)

/-- A search that has not left the context yet has left nothing behind. -/
theorem SearchedAs.of_same {res : SearchRes} (hfunc : ctx.funcDie = none)
    (hres : res ≠ .foundSubprog) : SearchedAs h ctx.cuDie f (res, ctx.plain) 0 ⟨res, ctx, h⟩ :=
  ⟨rfl, rfl, .refl h, rfl, Or.inl ⟨hres, hfunc, rfl⟩⟩

/-- After a search with the handle of a first child, which is not the function, the handle is
deallocated. -/
theorem SearchedAs.release {s : TreeSearch} (hs : SearchedAs h₁ cuDie f plain left s)
    (hkeeps : h₀.Keeps h₁) (hnone : h₀.get child = none) (hchild : h₁.get child = some record)
    (hcount : h₁.live = h₀.live + 1) (hcu : (h₀.get cuDie).isSome) :
    ∃ h', (if s.ctx.isSpare (some child) = true then dwarfDealloc s.heap child
        else some (.ok s.heap)) = some (.ok h') ∧
      SearchedAs h₀ cuDie f plain left ⟨s.res, s.ctx, h'⟩ := by
  have hnotChild : s.ctx.funcDie ≠ some child := by
    rcases hs.function with ⟨-, hnot, -⟩ | ⟨-, q, r, hq, hfresh, -⟩
    · simp [hnot]
    · rw [hq]
      rintro ⟨⟩
      rw [hchild] at hfresh
      cases hfresh
  have hnotUnit : child ≠ s.ctx.cuDie := by
    rintro rfl
    rw [hs.cuDie] at hnone
    rw [hnone] at hcu
    cases hcu
  have hspare : s.ctx.isSpare (some child) = true := by
    simp [CuHandles.isSpare, hnotUnit, hnotChild.symm]
  obtain ⟨h', hfree, hkept, hother, hfewer⟩ :=
    (hkeeps.trans hs.keeps).free hnone (hs.keeps _ _ hchild)
  refine ⟨h', by rw [if_pos hspare, dwarfDealloc, hfree], hs.res, hs.cuDie, hkept, ?_, ?_⟩
  · have hmore := hs.live
    simp only
    omega
  · rcases hs.function with hnot | ⟨hfound, q, r, hq, hfresh, hr, hdie, hsees⟩
    · exact Or.inl hnot
    · have hne : q ≠ child := by
        rintro rfl
        exact hnotChild hq
      exact Or.inr ⟨hfound, q, r, hq, hkeeps.get_eq_none hfresh, by rw [hother q hne, hr], hdie,
        hsees⟩

/-- The call on a first child goes as the one without handles, if the loop over its level
does. -/
theorem searchChildAt_spec (hlevel : LevelAs level record.forest) (hfunc : ctx.funcDie = none)
    (hcu : (h₀.get ctx.cuDie).isSome) :
    ∃ s, searchChildAt level ctx (h₀.alloc record).1 (h₀.alloc record).2 = some (.ok s) ∧
      SearchedAs h₀ ctx.cuDie record.forest
        (searchChildren (fun ctx => searchLevel ctx record.forest) ctx.plain record.forest)
        (leftBelow (fun ctx => leftLevel ctx record.forest) ctx.plain record.forest) s := by
  have hkeeps := CellHeap.keeps_alloc h₀ record
  have hnone := CellHeap.get_alloc_fst h₀ record
  have hself := CellHeap.get_alloc_self h₀ record
  have hcount := CellHeap.live_alloc h₀ record
  generalize (h₀.alloc record).1 = child at hnone hself ⊢
  generalize (h₀.alloc record).2 = h₁ at hkeeps hself hcount ⊢
  obtain ⟨ctx₁, hctx⟩ : ∃ ctx₁ : CuHandles, ctx₁ = { ctx with inLevel := ctx.inLevel + 1 } :=
    ⟨_, rfl⟩
  have hplain : { ctx.plain with inLevel := ctx.plain.inLevel + 1 } = ctx₁.plain := by
    rw [hctx]
    rfl
  have hcuDie : ctx.cuDie = ctx₁.cuDie := by rw [hctx]
  have hfunc₁ : ctx₁.funcDie = none := by
    rw [hctx]
    exact hfunc
  rw [hcuDie] at hcu ⊢
  have hcu₁ : (h₁.get ctx₁.cuDie).isSome := by
    obtain ⟨r, hr⟩ := Option.isSome_iff_exists.mp hcu
    rw [hkeeps _ _ hr]
    rfl
  have hreleased {plain : SearchRes × DwarfCUContext} {left : ℕ} {s : TreeSearch}
      (htree : searchInDieTreeAt level ctx₁ child h₁ = some (.ok s))
      (hs : SearchedAs h₁ ctx₁.cuDie record.forest plain left s) :
      ∃ s, searchChildAt level ctx child h₁ = some (.ok s) ∧
        SearchedAs h₀ ctx₁.cuDie record.forest plain left s := by
    obtain ⟨h', hfree, hafter⟩ := hs.release hkeeps hnone hself hcount hcu
    refine ⟨_, ?_, hafter⟩
    rw [searchChildAt, ← hctx, htree, Fuel.Bounded.andThen_ok, hfree, Fuel.Bounded.andThen_ok]
  have hsearch : searchChildren (fun ctx => searchLevel ctx record.forest) ctx.plain
      record.forest = enterDie (fun ctx => searchLevel ctx record.forest) ctx₁.plain
        record.die := by
    rw [← hplain]
    rfl
  have hleft : leftBelow (fun ctx => leftLevel ctx record.forest) ctx.plain record.forest =
      leftEntered (fun ctx => leftLevel ctx record.forest)
        (searchInDie ctx₁.plain record.die) := by
    rw [← hplain]
    rfl
  rw [hsearch, hleft, enterDie]
  rcases searchInDieTreeAt_cases level hself with ⟨htree, plain, hdie, hfound⟩ |
    ⟨res, hres, htree, hdie⟩ | ⟨res, hres, htree, hdie⟩
  · -- The child is the function: its handle is kept.
    rw [hdie]
    have hkept : ({ ctx₁ with funcDie := some child } : CuHandles).isSpare (some child) =
        false := by
      simp [CuHandles.isSpare]
    refine ⟨⟨.foundSubprog, { ctx₁ with funcDie := some child }, h₁⟩, ?_, rfl, rfl, hkeeps,
      hcount, Or.inr ⟨rfl, child, record, rfl, hnone, hself, hfound, .here⟩⟩
    rw [searchChildAt, ← hctx, htree, Fuel.Bounded.andThen_ok, hkept]
    rfl
  · rw [hdie]
    rcases hres with rfl | rfl | rfl
    · exact hreleased htree (.of_same hfunc₁ (by simp))
    · exact hreleased htree (.of_same hfunc₁ (by simp))
    · exact hreleased htree (.of_same hfunc₁ (by simp))
  · obtain ⟨s, hs, hafter⟩ := hlevel ctx₁ child child h₁ record hself rfl hfunc₁ hcu₁
    rw [hdie]
    rcases hres with rfl | rfl
    · exact hreleased (htree.trans hs) hafter
    · exact hreleased (htree.trans hs) hafter

/-- What has been left behind since a later heap, together with what was left behind by then. -/
theorem SearchedAs.of_later {s : TreeSearch} {k : ℕ} (hs : SearchedAs h₁ cuDie f plain left s)
    (hkeeps : h.Keeps h₁) (hcount : h₁.live = h.live + k) :
    SearchedAs h cuDie f plain (k + left) s := by
  refine ⟨hs.res, hs.cuDie, hkeeps.trans hs.keeps, ?_, ?_⟩
  · have hmore := hs.live
    omega
  · rcases hs.function with hnot | ⟨hfound, q, r, hq, hfresh, hrest⟩
    · exact Or.inl hnot
    · exact Or.inr ⟨hfound, q, r, hq, hkeeps.get_eq_none hfresh, hrest⟩

/-- What is found in a part is seen from the whole. -/
theorem SearchedAs.of_part {s : TreeSearch} {g : DieForest}
    (hs : SearchedAs h cuDie f plain left s) (hpart : ∀ x, f.Sees x → g.Sees x) :
    SearchedAs h cuDie g plain left s := by
  refine ⟨hs.res, hs.cuDie, hs.keeps, hs.live, ?_⟩
  rcases hs.function with hnot | ⟨hfound, q, r, hq, hfresh, hr, hdie, hsees⟩
  · exact Or.inl hnot
  · exact Or.inr ⟨hfound, q, r, hq, hfresh, hr, hdie, hpart _ hsees⟩

/-- Going on with the next sibling goes as without handles, if the loop from it on does. -/
theorem searchSiblingAt_spec (hlevel : LevelAs level record.siblings)
    (hrecord : h.get curDie = some record) (hfunc : ctx.funcDie = none)
    (hcu : (h.get ctx.cuDie).isSome) :
    ∃ s, searchSiblingAt level none ctx inDie curDie h = some (.ok s) ∧
      SearchedAs h ctx.cuDie record.siblings
        (searchSibling (fun ctx => searchLevel ctx record.siblings) ctx.plain record.siblings)
        (leftBeside (fun ctx => leftLevel ctx record.siblings) ctx.plain record.siblings) s := by
  simp only [searchSiblingAt, dwarfSiblingof, hrecord, Fuel.Bounded.andThen_ok]
  cases hsiblings : record.siblings with
  | absent =>
    exact ⟨_, rfl, rfl, rfl, .refl h, rfl, Or.inl ⟨by simp, hfunc, rfl⟩⟩
  | unreadable => exact ⟨_, rfl, .of_same hfunc (by simp)⟩
  | node sib below beside =>
    rw [hsiblings] at hlevel
    have hkeeps := CellHeap.keeps_alloc h ⟨sib, below, beside⟩
    have hnone := CellHeap.get_alloc_fst h ⟨sib, below, beside⟩
    have hself := CellHeap.get_alloc_self h ⟨sib, below, beside⟩
    have hcount := CellHeap.live_alloc h ⟨sib, below, beside⟩
    have hkept : ctx.isSpare none = false := by simp [CuHandles.isSpare, hfunc]
    simp only [followLink, hkept, Bool.false_eq_true, and_false, if_false,
      Fuel.Bounded.andThen_ok, searchInDieAt_eq hself, searchSibling, leftBeside]
    generalize (h.alloc ⟨sib, below, beside⟩).1 = sibDie at hnone hself ⊢
    generalize (h.alloc ⟨sib, below, beside⟩).2 = h₁ at hkeeps hself hcount ⊢
    have hcu₁ : (h₁.get ctx.cuDie).isSome := by
      obtain ⟨r, hr⟩ := Option.isSome_iff_exists.mp hcu
      rw [hkeeps _ _ hr]
      rfl
    rcases searchInDie_cases ctx.plain sib with ⟨hres, hdie⟩ | ⟨hres, hsame⟩
    · generalize searchInDie ctx.plain sib = answer at hres hdie ⊢
      obtain ⟨res, plain⟩ := answer
      obtain rfl : res = .foundSubprog := hres
      exact ⟨_, rfl, rfl, rfl, hkeeps, hcount, Or.inr ⟨rfl, sibDie, _, rfl, hnone, hself, hdie,
        .here⟩⟩
    · generalize searchInDie ctx.plain sib = answer at hres hsame ⊢
      obtain ⟨res, plain⟩ := answer
      obtain rfl : plain = ctx.plain := hsame
      obtain ⟨s, hs, hafter⟩ := hlevel ctx inDie sibDie h₁ _ hself rfl hfunc hcu₁
      cases res with
      | foundSubprog => exact absurd rfl hres
      | error => exact ⟨_, rfl, (SearchedAs.of_same hfunc hres).of_later hkeeps hcount⟩
      | ok | noEntry | notThisCu | inThisCu =>
        exact ⟨s, hs, hafter.of_later hkeeps hcount⟩

/-- The loop over a level goes as the one without handles, with fuel for each of its DIEs.
Induction on the forest. -/
theorem searchLevelAt_spec {fuel : ℕ} (hfuel : f.preorder.length ≤ fuel) :
    LevelAs (searchLevelAt fuel) f := by
  induction f generalizing fuel with
  | absent | unreadable =>
    intro ctx inDie curDie h record _ hforest
    cases hforest
  | node die children siblings ihc ihs =>
    intro ctx inDie curDie h record hrecord hforest hfunc hcu
    obtain rfl : record = ⟨die, children, siblings⟩ := by
      obtain ⟨_, _, _⟩ := record
      cases hforest
      rfl
    rw [SiblingForest.preorder_node, List.length_cons, List.length_append] at hfuel
    obtain ⟨fuel, rfl⟩ : ∃ k, fuel = k + 1 := ⟨fuel - 1, by omega⟩
    have hbelow := @ihc fuel (by omega)
    have hbeside := @ihs fuel (by omega)
    have hbelowSees (x : DieForest) (hx : children.Sees x) :
        (SiblingForest.node die children siblings).Sees x := .inChildren hx
    have hbesideSees (x : DieForest) (hx : siblings.Sees x) :
        (SiblingForest.node die children siblings).Sees x := .inSiblings hx
    simp only [searchLevelAt, dwarfChild, hrecord, Fuel.Bounded.andThen_ok, searchLevel,
      leftLevel]
    cases children with
    | absent =>
      obtain ⟨s, hs, hafter⟩ := @searchSiblingAt_spec _ _ _ _ inDie _ hbeside hrecord hfunc hcu
      exact ⟨s, hs, by simpa [searchChildren, leftBelow] using hafter.of_part hbesideSees⟩
    | unreadable => exact ⟨_, rfl, .of_same hfunc (by simp)⟩
    | node child below beside =>
      obtain ⟨s, hs, hafter⟩ :=
        @searchChildAt_spec _ _ h ⟨child, below, beside⟩ hbelow hfunc hcu
      simp only [DieRecord.forest] at hafter
      simp only [followLink, hs, Fuel.Bounded.andThen_ok]
      generalize searchChildren _ ctx.plain (.node child below beside) = below' at hafter ⊢
      obtain ⟨res, plain⟩ := below'
      have hres : s.res = res := hafter.res
      have hnext (hgo : res ≠ .foundSubprog) :
          ∃ s', searchSiblingAt (searchLevelAt fuel) none s.ctx inDie curDie s.heap =
              some (.ok s') ∧
            SearchedAs h ctx.cuDie (.node die (.node child below beside) siblings)
              (searchSibling (fun ctx => searchLevel ctx siblings) plain siblings)
              (leftBelow (fun ctx => leftLevel ctx (.node child below beside)) ctx.plain
                (.node child below beside) +
                leftBeside (fun ctx => leftLevel ctx siblings) plain siblings) s' := by
        obtain ⟨hfunc', rfl⟩ : s.ctx.funcDie = none ∧ plain = s.ctx.plain := by
          rcases hafter.function with ⟨-, hfunc', hplain⟩ | ⟨hfound, -⟩
          · exact ⟨hfunc', hplain⟩
          · exact absurd (hres.symm.trans hfound) hgo
        have hcu' : (s.heap.get s.ctx.cuDie).isSome := by
          obtain ⟨r, hr⟩ := Option.isSome_iff_exists.mp hcu
          rw [hafter.cuDie, hafter.keeps _ _ hr]
          rfl
        obtain ⟨s', hs', hlast⟩ := @searchSiblingAt_spec _ _ _ _ inDie _ hbeside
          (hafter.keeps _ _ hrecord) hfunc' hcu'
        rw [hafter.cuDie] at hlast
        exact ⟨s', hs', (hlast.of_part hbesideSees).of_later hafter.keeps hafter.live⟩
      cases res with
      | foundSubprog | notThisCu | error =>
        exact ⟨s, by simp only [hres], hafter.of_part hbelowSees⟩
      | ok | noEntry | inThisCu => simpa only [hres] using hnext (by simp)

end Search

/-- The handles that the search of a unit leaves behind, without that of the unit DIE. -/
def leftUnit (pc : DwarfAddr) (u : CompileUnit) : ℕ :=
  if u.cuDie.isHit pc = true then 0
  else leftEntered (fun ctx => leftLevel ctx u.tree) (searchInDie (.init pc) u.cuDie)

/-- The handles that the loop over the units leaves behind, without that of the unit DIE where a
function is found. -/
def leftUnits (pc : DwarfAddr) : List CompileUnit → ℕ
  | [] => 0
  | u :: rest => leftUnit pc u + if u.ends pc = true then 0 else leftUnits pc rest

/-- The handles that are given out are new and lead to the DIEs that are found, if any are. If the
unit DIE itself is taken for the function, they are the same. -/
inductive FoundAs (h h' : DieHeap) (units : List CompileUnit) (pc : DwarfAddr) :
    Option FoundHandles → Option FoundFunction → Prop
  | nothing : FoundAs h h' units pc none none
  | unitItself {p : DieHandle} {u : CompileUnit} (hu : u ∈ units)
      (hhit : u.cuDie.isHit pc = true) (hp : h.get p = none)
      (hunit : h'.get p = some ⟨u.cuDie, u.children, .absent⟩) :
      FoundAs h h' units pc (some ⟨p, some p⟩) (some ⟨u.cuDie, some u.cuDie⟩)
  | function {p q : DieHandle} {u : CompileUnit} {record : DieRecord} (hu : u ∈ units)
      (hmiss : u.cuDie.isHit pc = false) (hp : h.get p = none) (hq : h.get q = none)
      (hne : p ≠ q) (hunit : h'.get p = some ⟨u.cuDie, u.children, .absent⟩)
      (hfunc : h'.get q = some record) (hsees : u.tree.Sees record.forest) :
      FoundAs h h' units pc (some ⟨p, some q⟩) (some ⟨u.cuDie, some record.die⟩)

/-- The search of one DIE finds it exactly if it is a hit. -/
theorem searchInDie_found_iff (ctx : DwarfCUContext) (die : DwarfDie) :
    (searchInDie ctx die).1 = .foundSubprog ↔ die.isHit ctx.targetPc = true := by
  have hunit := matchCUDie_ne_foundSubprog ctx die
  unfold searchInDie DwarfDie.isHit DwarfDie.isFunction
  cases die.tag with
  | noEntry | error => simp
  | ok tag =>
    cases tag with
    | subprogram | inlinedSubroutine =>
      simp only [DwTag.isFunction, Bool.true_and, matchFuncDie]
      cases getLowAndHighPc die with
      | none => simp
      | some range =>
        by_cases hout : (ctx.targetPc < range.1 || range.2 ≤ ctx.targetPc) = true <;> simp [hout]
    | compileUnit | partialUnit | typeUnit =>
      by_cases hlevel : ctx.inLevel ≠ 0 <;> simp [hlevel, hunit, DwTag.isFunction]
    | _ => simp [DwTag.isFunction]

/-- A context without a function deallocates the handle of the unit DIE. -/
theorem CuHandles.destroy_spec {ctx : CuHandles} {h h₁ : DieHeap} {record : DieRecord} {left : ℕ}
    (hfunc : ctx.funcDie = none) (hkeeps : h.Keeps h₁) (hnone : h.get ctx.cuDie = none)
    (hunit : h₁.get ctx.cuDie = some record) (hcount : h₁.live = h.live + (1 + left)) :
    ∃ h', ctx.destroy h₁ = some (.ok h') ∧ h.Keeps h' ∧ h'.live = h.live + left := by
  obtain ⟨h', hfree, hkept, -, hfewer⟩ := hkeeps.free hnone hunit
  refine ⟨h', ?_, hkept, by omega⟩
  simp only [destroy, dwarfDealloc, hfree, Fuel.Bounded.andThen_ok, hfunc]

/-- A unit has been searched from the handle of its unit DIE on, as without handles. -/
structure UnitSearchedAs (h : DieHeap) (pc : DwarfAddr) (u : CompileUnit) (p : DieHandle)
    (s : TreeSearch) : Prop where
  res : s.res = (searchInDieTree (.init pc) u.tree).1
  cuDie : s.ctx.cuDie = p
  fresh : h.get p = none
  unit : s.heap.get p = some ⟨u.cuDie, u.children, .absent⟩
  keeps : h.Keeps s.heap
  live : s.heap.live = h.live + (1 + leftUnit pc u)
  nothing : s.res ≠ .foundSubprog → s.ctx.funcDie = none
  found : s.res = .foundSubprog → FoundAs h s.heap [u] pc (some ⟨p, s.ctx.funcDie⟩)
    (some ⟨u.cuDie, (searchInDieTree (.init pc) u.tree).2.funcDie⟩)

/-- The search of a unit from its unit DIE on, with fuel for each of its DIEs. -/
theorem searchUnitAt_spec {u : CompileUnit} {h : DieHeap} {fuel : ℕ} (pc : DwarfAddr)
    (hfuel : u.tree.preorder.length ≤ fuel) :
    ∃ s, searchInDieTreeAt (searchLevelAt fuel)
        ⟨pc, (h.alloc ⟨u.cuDie, u.children, .absent⟩).1, none, 0⟩
        (h.alloc ⟨u.cuDie, u.children, .absent⟩).1 (h.alloc ⟨u.cuDie, u.children, .absent⟩).2 =
        some (.ok s) ∧
      UnitSearchedAs h pc u (h.alloc ⟨u.cuDie, u.children, .absent⟩).1 s := by
  have hkeeps := CellHeap.keeps_alloc h ⟨u.cuDie, u.children, .absent⟩
  have hnone := CellHeap.get_alloc_fst h ⟨u.cuDie, u.children, .absent⟩
  have hself := CellHeap.get_alloc_self h ⟨u.cuDie, u.children, .absent⟩
  have hcount := CellHeap.live_alloc h ⟨u.cuDie, u.children, .absent⟩
  generalize (h.alloc ⟨u.cuDie, u.children, .absent⟩).1 = p at hnone hself ⊢
  generalize (h.alloc ⟨u.cuDie, u.children, .absent⟩).2 = h₁ at hkeeps hself hcount ⊢
  have hhit := searchInDie_found_iff (.init pc) u.cuDie
  have hpc : (DwarfCUContext.init pc).targetPc = pc := rfl
  have hplain : (⟨pc, p, none, 0⟩ : CuHandles).plain = .init pc := rfl
  have htree : searchInDieTree (.init pc) u.tree =
      enterDie (fun ctx => searchLevel ctx u.tree) (.init pc) u.cuDie := rfl
  rw [hpc] at hhit
  rcases searchInDieTreeAt_cases (searchLevelAt fuel) hself with ⟨hs, plain, hdie, hfound⟩ |
    ⟨res, hres, hs, hdie⟩ | ⟨res, hres, hs, hdie⟩
  · rw [hplain] at hdie
    rw [hdie] at hhit
    have hentered : searchInDieTree (.init pc) u.tree = (.foundSubprog, plain) := by
      rw [htree, enterDie, hdie]
    refine ⟨_, hs, by rw [hentered], rfl, hnone, hself, hkeeps, ?_, fun h => absurd rfl h,
      fun _ => ?_⟩
    · rw [leftUnit, if_pos (hhit.mp rfl)]
      exact hcount
    · rw [hentered, hfound]
      exact .unitItself (List.mem_singleton_self u) (hhit.mp rfl) hnone hself
  · rw [hplain] at hdie
    have hmiss : ¬u.cuDie.isHit pc = true := by
      rw [← hhit, hdie]
      rcases hres with rfl | rfl | rfl <;> simp
    have hentered : searchInDieTree (.init pc) u.tree = (res, .init pc) := by
      rw [htree, enterDie, hdie]
      rcases hres with rfl | rfl | rfl <;> rfl
    have hnot : res ≠ .foundSubprog := by rcases hres with rfl | rfl | rfl <;> simp
    refine ⟨_, hs, by rw [hentered], rfl, hnone, hself, hkeeps, ?_, fun _ => rfl,
      fun h => absurd h hnot⟩
    rw [leftUnit, if_neg hmiss, hdie]
    rcases hres with rfl | rfl | rfl <;> exact hcount
  · rw [hplain] at hdie
    have hmiss : ¬u.cuDie.isHit pc = true := by
      rw [← hhit, hdie]
      rcases hres with rfl | rfl <;> simp
    have hentered : searchInDieTree (.init pc) u.tree = searchLevel (.init pc) u.tree := by
      rw [htree, enterDie, hdie]
      rcases hres with rfl | rfl <;> rfl
    have hleft : leftUnit pc u = leftLevel (.init pc) u.tree := by
      rw [leftUnit, if_neg hmiss, hdie]
      rcases hres with rfl | rfl <;> rfl
    obtain ⟨s, hlevel, hafter⟩ := searchLevelAt_spec hfuel ⟨pc, p, none, 0⟩ p p h₁ _ hself rfl rfl
      (by rw [hself]; rfl)
    rw [hplain, ← hentered, ← hleft] at hafter
    refine ⟨s, hs.trans hlevel, hafter.res, hafter.cuDie, hnone, hafter.keeps _ _ hself,
      hkeeps.trans hafter.keeps, ?_, fun hnot => ?_, fun hfound => ?_⟩
    · have hmore := hafter.live
      omega
    · rcases hafter.function with ⟨-, hfunc, -⟩ | ⟨hfound, -⟩
      · exact hfunc
      · exact absurd hfound hnot
    · rcases hafter.function with ⟨hnot, -⟩ | ⟨-, q, record, hq, hfresh, hrecord, hdie, hsees⟩
      · exact absurd hfound hnot
      · rw [hq, hdie]
        have hne : p ≠ q := by
          rintro rfl
          rw [hself] at hfresh
          cases hfresh
        exact .function (List.mem_singleton_self u) (Bool.eq_false_iff.mpr hmiss) hnone
          (hkeeps.get_eq_none hfresh) hne (hafter.keeps _ _ hself) hrecord hsees

/-- What is found in a unit is found in a list of units that has it. -/
theorem FoundAs.of_units {h h' : DieHeap} {units units' : List CompileUnit} {pc : DwarfAddr}
    {found : Option FoundHandles} {plain : Option FoundFunction}
    (hfound : FoundAs h h' units pc found plain) (hsub : ∀ u ∈ units, u ∈ units') :
    FoundAs h h' units' pc found plain := by
  cases hfound with
  | nothing => exact .nothing
  | unitItself hu hhit hp hunit => exact .unitItself (hsub _ hu) hhit hp hunit
  | function hu hmiss hp hq hne hunit hfunc hsees =>
    exact .function (hsub _ hu) hmiss hp hq hne hunit hfunc hsees

/-- New handles are new for every earlier heap. -/
theorem FoundAs.of_later {h h₁ h' : DieHeap} {units : List CompileUnit} {pc : DwarfAddr}
    {found : Option FoundHandles} {plain : Option FoundFunction}
    (hfound : FoundAs h₁ h' units pc found plain) (hkeeps : h.Keeps h₁) :
    FoundAs h h' units pc found plain := by
  cases hfound with
  | nothing => exact .nothing
  | unitItself hu hhit hp hunit => exact .unitItself hu hhit (hkeeps.get_eq_none hp) hunit
  | function hu hmiss hp hq hne hunit hfunc hsees =>
    exact .function hu hmiss (hkeeps.get_eq_none hp) (hkeeps.get_eq_none hq) hne hunit hfunc hsees

/-- The loop over the units goes as the one without handles. Induction on the units. -/
theorem searchUnitsAt_spec {units : List CompileUnit} {fuel : ℕ} (pc : DwarfAddr)
    (hfuel : ∀ u ∈ units, u.tree.preorder.length ≤ fuel) (cursor : CuCursor) (h : DieHeap) :
    ∃ found h', searchUnitsAt fuel pc units cursor h =
        some (.ok (found, (searchUnits pc units cursor).2, h')) ∧
      FoundAs h h' units pc found (searchUnits pc units cursor).1 ∧ h.Keeps h' ∧
      h'.live = h.live + leftUnits pc units + if found.isSome then 1 else 0 := by
  induction units generalizing cursor h with
  | nil => exact ⟨none, h, rfl, .nothing, .refl h, rfl⟩
  | cons u rest ih =>
    obtain ⟨hu, hrest⟩ := List.forall_mem_cons.mp hfuel
    obtain ⟨s, hs, hafter⟩ := @searchUnitAt_spec u h fuel pc hu
    have hfirst (v : CompileUnit) (hv : v ∈ [u]) : v ∈ u :: rest := by
      rw [List.mem_singleton.mp hv]
      exact List.mem_cons_self ..
    have hlater (v : CompileUnit) (hv : v ∈ rest) : v ∈ u :: rest := List.mem_cons_of_mem _ hv
    have hres := hafter.res
    have hfound := hafter.found
    have hdestroyed (hnot : s.res ≠ .foundSubprog) : ∃ h', s.ctx.destroy s.heap = some (.ok h') ∧
        h.Keeps h' ∧ h'.live = h.live + leftUnit pc u :=
      CuHandles.destroy_spec (hafter.nothing hnot) hafter.keeps
        (by rw [hafter.cuDie]; exact hafter.fresh) (by rw [hafter.cuDie]; exact hafter.unit)
        hafter.live
    rcases htree : searchInDieTree (.init pc) u.tree with ⟨res, plain⟩
    rw [htree] at hres hfound
    simp only [searchUnitsAt, hs, Fuel.Bounded.andThen_ok, searchUnits_cons, leftUnits,
      CompileUnit.ends, CompileUnit.verdict, htree]
    cases res with
    | foundSubprog =>
      refine ⟨_, s.heap, by rw [hres]; rfl, ?_, hafter.keeps, ?_⟩
      · rw [hafter.cuDie]
        exact (hfound hres).of_units hfirst
      · have hmore := hafter.live
        simp
        omega
    | inThisCu | error =>
      obtain ⟨h', hfree, hkept, hmore⟩ := hdestroyed (by simp [hres])
      exact ⟨none, h', by simp [hres, hfree], .nothing, hkept, by simpa using hmore⟩
    | ok | noEntry | notThisCu =>
      obtain ⟨h', hfree, hkept, hmore⟩ := hdestroyed (by simp [hres])
      obtain ⟨found, h'', hsearch, hfoundAs, hkept', hlive⟩ := ih hrest (cursor + 1) h'
      refine ⟨found, h'', by simp [hres, hfree, hsearch],
        by simpa using (hfoundAs.of_units hlater).of_later hkept, hkept.trans hkept', ?_⟩
      simp
      omega

/-- What the handles that are given out lead to. -/
def FoundHandles.dies (found : FoundHandles) (h : DieHeap) :
    Fuel.Bounded HandleFault FoundFunction :=
  match h.get found.cuDie, found.funcDie with
  | none, _ => some (.error .notLive)
  | some cu, none => some (.ok ⟨cu.die, none⟩)
  | some cu, some q =>
    match h.get q with
    | none => some (.error .notLive)
    | some func => some (.ok ⟨cu.die, some func.die⟩)

/-- The calls of `dwarf_dealloc` at the end of the loop of `main`. -/
def FoundHandles.release (found : FoundHandles) (h : DieHeap) : Fuel.Bounded HandleFault DieHeap :=
  (dwarfDealloc h found.cuDie).andThen fun h =>
    match found.funcDie with
    | none => some (.ok h)
    | some funcDie => dwarfDealloc h funcDie

/-- The searches of `main`, one address after the other. For a function that is not `complete`,
which has no address size or version, `main` goes on without deallocating its handles. -/
def searchFunctionsAt (fuel : ℕ) (complete : FoundFunction → Bool) (units : List CompileUnit) :
    CuCursor → List DwarfAddr → DieHeap →
      Fuel.Bounded HandleFault (List (Option FoundFunction) × DieHeap)
  | _, [], h => some (.ok ([], h))
  | cursor, pc :: pcs, h =>
    (searchFunctionAt fuel units cursor pc h).andThen fun (found, cursor, h) =>
      match found with
      | none => (searchFunctionsAt fuel complete units cursor pcs h).andThen fun (answers, h) =>
        some (.ok (none :: answers, h))
      | some found =>
        (found.dies h).andThen fun answer =>
          (if complete answer = true then found.release h else some (.ok h)).andThen fun h =>
            (searchFunctionsAt fuel complete units cursor pcs h).andThen fun (answers, h) =>
              some (.ok (some answer :: answers, h))

/-- The handles that the searches for the addresses leave behind and give out. -/
def leftSearches (units : List CompileUnit) : CuCursor → List DwarfAddr → ℕ
  | _, [] => 0
  | cursor, pc :: pcs =>
    leftUnits pc (units.drop cursor) + (searchFunction units cursor pc).1.isSome.toNat +
      leftSearches units (searchFunction units cursor pc).2 pcs

/-- Two handles that are given out and lead to DIEs are deallocated. -/
theorem FoundHandles.release_spec {h h' : DieHeap} {p q : DieHandle} {cu func : DieRecord}
    (hkeeps : h.Keeps h') (hp : h.get p = none) (hq : h.get q = none) (hne : p ≠ q)
    (hunit : h'.get p = some cu) (hfunc : h'.get q = some func) :
    ∃ h'', FoundHandles.release ⟨p, some q⟩ h' = some (.ok h'') ∧ h.Keeps h'' ∧
      h''.live + 2 = h'.live := by
  obtain ⟨h₁, hfree, hkept, hother, hfewer⟩ := hkeeps.free hp hunit
  have hstill : h₁.get q = some func := by
    rw [hother q hne.symm, hfunc]
  obtain ⟨h₂, hfree', hkept', -, hfewer'⟩ := hkept.free hq hstill
  refine ⟨h₂, ?_, hkept', by omega⟩
  simp only [release, dwarfDealloc, hfree, Fuel.Bounded.andThen_ok, hfree']

/-- A unit with a function behind two variables. -/
def functionBehindVariables : CompileUnit where
  cuDie := unitWithFunction.cuDie
  children := .node (plainDie 30 .variable none) .absent
    (.node (plainDie 36 .variable none) .absent unitWithFunction.children)

end DwarfExpr
