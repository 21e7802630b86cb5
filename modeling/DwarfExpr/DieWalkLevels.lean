import Mathlib.Algebra.BigOperators.Group.List.Basic
import DwarfExpr.DieWalk

/-!
# The DIEs that a walk visits and the levels it gives them

Without a limit the walk visits each DIE once in document order. A limit is compared with
a level that the loop over siblings raises each time it goes down, so after a DIE with
children the siblings are taken to lie a level deeper than they do.
-/

namespace DwarfExpr

theorem walkDIE_unreadable (maxLv : ℤ) (parentDie die : DwarfDie) (siblings : DieForest)
    (curLv : ℤ) :
    walkDIE maxLv parentDie (.node die .unreadable siblings) curLv = [⟨parentDie, die, curLv⟩] :=
  rfl

theorem walkDIE_childless (maxLv : ℤ) (parentDie die : DwarfDie) (siblings : DieForest)
    (curLv : ℤ) :
    walkDIE maxLv parentDie (.node die .absent siblings) curLv =
      ⟨parentDie, die, curLv⟩ :: walkDIE maxLv parentDie siblings curLv := rfl

/-- The walk goes down to the children and on to the siblings with the raised level. -/
theorem walkDIE_down {maxLv curLv : ℤ} (hdown : maxLv = -1 ∨ curLv < maxLv)
    (parentDie die first : DwarfDie) (below rest siblings : DieForest) :
    walkDIE maxLv parentDie (.node die (.node first below rest) siblings) curLv =
      ⟨parentDie, die, curLv⟩ :: (walkDIE maxLv die (.node first below rest) (curLv + 1) ++
        walkDIE maxLv parentDie siblings (curLv + 1)) := by
  rw [walkDIE, if_pos hdown]

/-- The walk passes over the children at the limit. -/
theorem walkDIE_along {maxLv curLv : ℤ} (hlimit : ¬(maxLv = -1 ∨ curLv < maxLv))
    (parentDie die first : DwarfDie) (below rest siblings : DieForest) :
    walkDIE maxLv parentDie (.node die (.node first below rest) siblings) curLv =
      ⟨parentDie, die, curLv⟩ :: walkDIE maxLv parentDie siblings curLv := by
  rw [walkDIE, if_neg hlimit]

/-- The calls of the walker without a limit. Induction on the forest, where the level plays
no part. -/
theorem walkDIE_unlimited (parentDie : DwarfDie) {f : DieForest} (hreadable : f.Readable)
    (curLv : ℤ) (depth : ℕ) :
    (walkDIE (-1) parentDie f curLv).map (fun visit => (visit.parentDie, visit.die)) =
      (f.listing parentDie depth).map fun e => (e.above, e.entry) := by
  induction f generalizing parentDie curLv depth with
  | absent => rfl
  | unreadable => exact hreadable.elim
  | node die children siblings ihc ihs =>
    obtain ⟨hchildren, hsiblings⟩ := hreadable
    cases children with
    | absent =>
      rw [walkDIE_childless, List.map_cons, ihs parentDie hsiblings curLv depth]
      rfl
    | unreadable => exact hchildren.elim
    | node first below rest =>
      rw [walkDIE_down (Or.inl rfl), SiblingForest.listing_node, List.map_cons, List.map_append,
        List.map_cons, List.map_append, ihc die hchildren (curLv + 1) (depth + 1),
        ihs parentDie hsiblings (curLv + 1) depth]

/-- A walk without a limit over DIEs that can all be read calls the walker once on each of
them, in document order and with the DIE it stands below. -/
theorem walkDIE_visits_documentOrder (parentDie : DwarfDie) {f : DieForest}
    (hreadable : f.Readable) (curLv : ℤ) :
    (walkDIE (-1) parentDie f curLv).map DieVisit.die = f.preorder ∧
      (walkDIE (-1) parentDie f curLv).map (fun visit => (visit.parentDie, visit.die)) =
        (f.listing parentDie 0).map fun e => (e.above, e.entry) := by
  have hvisits := walkDIE_unlimited parentDie hreadable curLv 0
  refine ⟨?_, hvisits⟩
  have hdies := congrArg (List.map Prod.snd) hvisits
  rw [List.map_map, List.map_map] at hdies
  rw [← SiblingForest.map_entry_listing parentDie 0 f]
  exact hdies

/-- Two functions with a local variable each. -/
def twoFunctions : DieForest :=
  .node (plainDie 42 .subprogram none) (.node (plainDie 50 .variable none) .absent .absent)
    (.node (plainDie 60 .subprogram none) (.node (plainDie 70 .variable none) .absent .absent)
      .absent)

/-- An unlimited walk visits both functions and their variables. -/
theorem twoFunctions_documentOrder :
    (walkDIE (-1) (plainDie 11 .compileUnit none) twoFunctions 0).map DieVisit.die =
      twoFunctions.preorder :=
  (walkDIE_visits_documentOrder _ (by decide) 0).1

/-- The calls of the walker are the DIEs down to the limit, each once and with the first
level raised by its depth. -/
def WalksByLevel (maxLv : ℤ) (parentDie : DwarfDie) (f : DieForest) (curLv : ℤ) : Prop :=
  List.Perm ((walkDIE maxLv parentDie f curLv).map fun visit => (visit.die, visit.curLv))
    (((f.listing parentDie 0).filter fun e => (e.depth : ℤ) ≤ maxLv - curLv).map fun e =>
      (e.entry, curLv + e.depth))

/-- Where no DIE that the walk goes down from is followed by another, the walk keeps to the
levels. Induction on the forest, with the first level brought down by the depth. -/
theorem walkDIE_of_descendsLast {maxLv : ℤ} {f : DieForest} {k : ℕ} (hlast : f.DescendsLast k)
    (hdepth : maxLv = -1 → ∀ path x, f.PathTo path x → path.length ≤ k)
    (parentDie : DwarfDie) (curLv : ℤ) (depth : ℕ) (hmax : maxLv = curLv + depth + k) :
    (walkDIE maxLv parentDie f (curLv + depth)).map (fun visit => (visit.die, visit.curLv)) =
      ((f.listing parentDie depth).filter fun e => (e.depth : ℤ) ≤ maxLv - curLv).map fun e =>
        (e.entry, curLv + e.depth) := by
  induction f generalizing k parentDie depth with
  | absent | unreadable => rfl
  | node die children siblings ihc ihs =>
    have hkept : decide ((depth : ℤ) ≤ maxLv - curLv) = true := decide_eq_true (by omega)
    have hdepths (hmax : maxLv = -1) (path : List DwarfDie) (x : DwarfDie)
        (hpath : siblings.PathTo path x) : path.length ≤ k := hdepth hmax path x (.inSiblings hpath)
    rw [SiblingForest.listing_node, List.filter_cons, if_pos hkept, List.map_cons,
      List.filter_append, List.map_append]
    cases children with
    | absent =>
      rw [walkDIE_childless, List.map_cons, ihs hlast.siblings hdepths parentDie depth hmax]
      rfl
    | unreadable =>
      have hend := hlast.preorder_siblings
      rcases siblings.preorder_eq_nil_iff.mp hend with rfl | rfl <;> rfl
    | node first below rest =>
      by_cases hdown : maxLv = -1 ∨ curLv + depth < maxLv
      · obtain ⟨k, rfl⟩ : ∃ k', k = k' + 1 := by
          refine Nat.exists_eq_succ_of_ne_zero fun hk => ?_
          rcases hdown with hnone | hbelow
          · have hfirst := hdepth hnone [die] first (.inChildren .here)
            rw [hk] at hfirst
            exact absurd hfirst (by simp)
          · omega
        obtain ⟨hend, hchildren, -⟩ := hlast
        have hdepthc (hmax : maxLv = -1) (path : List DwarfDie) (x : DwarfDie)
            (hpath : (SiblingForest.node first below rest).PathTo path x) : path.length ≤ k := by
          simpa using hdepth hmax (die :: path) x (.inChildren hpath)
        have hlevel : curLv + (depth : ℤ) + 1 = curLv + ((depth + 1 : ℕ) : ℤ) := by
          push_cast
          ring
        rw [walkDIE_down hdown, List.map_cons, List.map_append, hlevel,
          ihc hchildren hdepthc die (depth + 1) (by push_cast at hmax ⊢; omega)]
        rcases siblings.preorder_eq_nil_iff.mp (hend (by simp)) with rfl | rfl <;> rfl
      · obtain rfl : k = 0 := by omega
        have hcut : ((SiblingForest.node first below rest).listing die (depth + 1)).filter
            (fun e => (e.depth : ℤ) ≤ maxLv - curLv) = [] := by
          rw [List.filter_eq_nil_iff]
          intro e he
          have hdeeper := SiblingForest.le_depth_of_mem_listing he
          rw [decide_eq_true_eq]
          omega
        rw [walkDIE_along hdown, List.map_cons, hcut,
          ihs hlast.siblings hdepths parentDie depth hmax]
        rfl

/-- The levels that are left below the listed ones and at them, summed up. -/
def levelsLeft (maxLv : ℤ) (levels : List (DwarfDie × ℤ)) : ℕ :=
  (levels.map fun visit => (maxLv + 1 - visit.2).toNat).sum

@[simp] theorem levelsLeft_nil (maxLv : ℤ) : levelsLeft maxLv [] = 0 := rfl

@[simp] theorem levelsLeft_cons (maxLv : ℤ) (visit : DwarfDie × ℤ)
    (levels : List (DwarfDie × ℤ)) :
    levelsLeft maxLv (visit :: levels) =
      (maxLv + 1 - visit.2).toNat + levelsLeft maxLv levels := rfl

@[simp] theorem levelsLeft_append (maxLv : ℤ) (levels levels' : List (DwarfDie × ℤ)) :
    levelsLeft maxLv (levels ++ levels') = levelsLeft maxLv levels + levelsLeft maxLv levels' := by
  simp [levelsLeft]

/-- The sum for a forest whose first level leaves the given number of levels. -/
def forestLevelsLeft : ℕ → DieForest → ℕ
  | _, .absent => 0
  | _, .unreadable => 0
  | left, .node _ children siblings =>
    left + forestLevelsLeft (left - 1) children + forestLevelsLeft left siblings

/-- The sum over the DIEs down to the limit. Induction on the forest. -/
theorem levelsLeft_listing (maxLv curLv : ℤ) (f : DieForest) (parentDie : DwarfDie)
    (depth : ℕ) :
    levelsLeft maxLv (((f.listing parentDie depth).filter fun e =>
      (e.depth : ℤ) ≤ maxLv - curLv).map fun e => (e.entry, curLv + e.depth)) =
      forestLevelsLeft (maxLv + 1 - (curLv + depth)).toNat f := by
  induction f generalizing parentDie depth with
  | absent | unreadable => rfl
  | node die children siblings ihc ihs =>
    have hnext : (maxLv + 1 - (curLv + ((depth + 1 : ℕ) : ℤ))).toNat =
        (maxLv + 1 - (curLv + depth)).toNat - 1 := by omega
    rw [SiblingForest.listing_node, List.filter_cons, forestLevelsLeft, ← hnext, ← ihc die,
      ← ihs parentDie]
    by_cases hkept : (depth : ℤ) ≤ maxLv - curLv
    · rw [if_pos (decide_eq_true hkept), List.filter_append, List.map_cons, List.map_append,
        levelsLeft_cons, levelsLeft_append, add_assoc]
    · have hnone : (maxLv + 1 - (curLv + depth)).toNat = 0 := by omega
      rw [if_neg (by simpa using hkept), List.filter_append, List.map_append, levelsLeft_append,
        hnone, zero_add]

/-- One more level adds one for each DIE that had levels left. -/
theorem forestLevelsLeft_mono (left : ℕ) (f : DieForest) :
    forestLevelsLeft left f ≤ forestLevelsLeft (left + 1) f := by
  induction f generalizing left with
  | absent | unreadable => exact le_rfl
  | node die children siblings ihc ihs =>
    have hbelow : forestLevelsLeft (left - 1) children ≤
        forestLevelsLeft (left + 1 - 1) children := by
      cases left with
      | zero => exact le_rfl
      | succ left => exact ihc left
    have hbeside := ihs left
    rw [forestLevelsLeft, forestLevelsLeft]
    omega

/-- One more level adds something if there is a DIE. -/
theorem preorder_eq_nil_of_levelsLeft {left : ℕ} {f : DieForest}
    (h : forestLevelsLeft (left + 1) f ≤ forestLevelsLeft left f) : f.preorder = [] := by
  cases f with
  | absent | unreadable => rfl
  | node die children siblings =>
    have hbelow : forestLevelsLeft (left - 1) children ≤ forestLevelsLeft left children := by
      cases left with
      | zero => exact le_rfl
      | succ left => exact forestLevelsLeft_mono left children
    have hbeside := forestLevelsLeft_mono left siblings
    rw [forestLevelsLeft, forestLevelsLeft, Nat.add_sub_cancel] at h
    omega

/-- A walk that goes down and gives no DIE more than `k` levels more has such a level left for
the first child. -/
theorem exists_succ_of_walkDIE_down {maxLv curLv limit : ℤ} {k : ℕ}
    (hdown : maxLv = -1 ∨ curLv < maxLv) (hlimit : limit = curLv + k)
    {parentDie die first : DwarfDie} {below rest siblings : DieForest}
    (hwithin : ∀ visit ∈ walkDIE maxLv parentDie (.node die (.node first below rest) siblings)
      curLv, visit.curLv ≤ limit) : ∃ k', k = k' + 1 := by
  rw [walkDIE_down hdown] at hwithin
  have hfirst := hwithin ⟨die, first, curLv + 1⟩
    (List.mem_cons_of_mem _ (List.mem_append_left _ (List.mem_cons_self ..)))
  dsimp only at hfirst
  exact Nat.exists_eq_succ_of_ne_zero fun hk => by omega

/-- A walk that stays within the limit leaves no more levels than the DIEs have, and it
leaves fewer if it goes down from a DIE that is followed by another. Induction on the
forest. -/
theorem levelsLeft_walkDIE {maxLv : ℤ} (f : DieForest) (parentDie : DwarfDie) (curLv : ℤ)
    (k : ℕ) (hmax : maxLv = curLv + k)
    (hwithin : ∀ visit ∈ walkDIE maxLv parentDie f curLv, visit.curLv ≤ maxLv) :
    levelsLeft maxLv ((walkDIE maxLv parentDie f curLv).map fun visit =>
        (visit.die, visit.curLv)) ≤ forestLevelsLeft (k + 1) f ∧
      (forestLevelsLeft (k + 1) f ≤ levelsLeft maxLv ((walkDIE maxLv parentDie f curLv).map
        fun visit => (visit.die, visit.curLv)) → f.DescendsLast k) := by
  induction f generalizing parentDie curLv k with
  | absent | unreadable => exact ⟨le_rfl, fun _ => by cases k <;> trivial⟩
  | node die children siblings ihc ihs =>
    have hown : (maxLv + 1 - curLv).toNat = k + 1 := by omega
    rw [forestLevelsLeft, Nat.add_sub_cancel]
    cases children with
    | absent =>
      rw [walkDIE_childless] at hwithin ⊢
      obtain ⟨hle, hlast⟩ := ihs parentDie curLv k hmax fun visit hvisit =>
        hwithin visit (List.mem_cons_of_mem _ hvisit)
      rw [List.map_cons, levelsLeft_cons, hown, forestLevelsLeft, add_zero]
      refine ⟨by omega, fun hge => ?_⟩
      have hbeside := hlast (by omega)
      cases k with
      | zero => exact ⟨fun h => (by cases h), hbeside⟩
      | succ k => exact ⟨fun h => absurd rfl h, trivial, hbeside⟩
    | unreadable =>
      rw [walkDIE_unreadable, List.map_cons, List.map_nil, levelsLeft_cons, levelsLeft_nil, hown,
        forestLevelsLeft, add_zero]
      refine ⟨Nat.le_add_right .., fun hge => ?_⟩
      have hend : siblings.preorder = [] := by
        have hmono := forestLevelsLeft_mono k siblings
        refine @preorder_eq_nil_of_levelsLeft k siblings ?_
        omega
      have hbeside := SiblingForest.descendsLast_of_preorder_eq_nil hend
      cases k with
      | zero => exact ⟨fun _ => hend, hbeside 0⟩
      | succ k => exact ⟨fun _ => hend, trivial, hbeside (k + 1)⟩
    | node first below rest =>
      by_cases hdown : maxLv = -1 ∨ curLv < maxLv
      · obtain ⟨k, rfl⟩ := exists_succ_of_walkDIE_down hdown hmax hwithin
        rw [walkDIE_down hdown] at hwithin ⊢
        obtain ⟨hlec, hlastc⟩ := ihc die (curLv + 1) k (by push_cast at hmax; omega)
          fun visit hvisit =>
            hwithin visit (List.mem_cons_of_mem _ (List.mem_append_left _ hvisit))
        obtain ⟨hles, -⟩ := ihs parentDie (curLv + 1) k (by push_cast at hmax; omega)
          fun visit hvisit =>
            hwithin visit (List.mem_cons_of_mem _ (List.mem_append_right _ hvisit))
        have hmono := forestLevelsLeft_mono (k + 1) siblings
        rw [List.map_cons, List.map_append, levelsLeft_cons, levelsLeft_append, hown]
        refine ⟨by omega, fun hge => ?_⟩
        have hend : siblings.preorder = [] :=
          @preorder_eq_nil_of_levelsLeft (k + 1) siblings (by omega)
        exact ⟨fun _ => hend, hlastc (by omega),
          SiblingForest.descendsLast_of_preorder_eq_nil hend (k + 1)⟩
      · obtain rfl : k = 0 := by omega
        rw [walkDIE_along hdown] at hwithin ⊢
        obtain ⟨hle, hlast⟩ := ihs parentDie curLv 0 hmax fun visit hvisit =>
          hwithin visit (List.mem_cons_of_mem _ hvisit)
        rw [List.map_cons, levelsLeft_cons, hown]
        exact ⟨by omega, fun hge => ⟨fun h => (by cases h), hlast (by omega)⟩⟩

/-- A walk without a limit that gives no DIE a deeper level finds no deeper DIE, if none that
it goes down from is followed by another. Induction on the forest. -/
theorem length_le_of_walkDIE {f : DieForest} {k : ℕ} (hlast : f.DescendsLast k)
    (parentDie : DwarfDie) (curLv : ℤ)
    (hwithin : ∀ visit ∈ walkDIE (-1) parentDie f curLv, visit.curLv ≤ curLv + k)
    {path : List DwarfDie} {x : DwarfDie} (hpath : f.PathTo path x) : path.length ≤ k := by
  induction f generalizing k parentDie curLv path with
  | absent | unreadable => cases hpath
  | node die children siblings ihc ihs =>
    cases children with
    | absent =>
      cases hpath with
      | here => simp
      | inChildren hbelow => cases hbelow
      | inSiblings hrest =>
        exact ihs hlast.siblings parentDie curLv
          (fun visit hvisit => hwithin visit (List.mem_cons_of_mem _ hvisit)) hrest
    | unreadable =>
      have hend := hlast.preorder_siblings
      cases hpath with
      | here => simp
      | inChildren hbelow => cases hbelow
      | inSiblings hrest => exact absurd hrest.mem_preorder (by simp [hend])
    | node first below rest =>
      obtain ⟨k, rfl⟩ := exists_succ_of_walkDIE_down (Or.inl rfl) rfl hwithin
      rw [walkDIE_down (Or.inl rfl)] at hwithin
      obtain ⟨hend, hchildren, -⟩ := hlast
      cases hpath with
      | here => simp
      | inChildren hbelow =>
        have hshort := ihc hchildren die (curLv + 1) (fun visit hvisit => by
          have hle := hwithin visit (List.mem_cons_of_mem _ (List.mem_append_left _ hvisit))
          push_cast at hle
          omega) hbelow
        simpa using hshort
      | inSiblings hrest => exact absurd hrest.mem_preorder (by simp [hend (by simp)])

/-- The walk keeps to the levels exactly when no DIE that it goes down from, and none whose
children cannot be read, is followed by another, down to the limit, and, as it takes the
limit -1 for none, when then no DIE lies deeper. -/
theorem walksByLevel_iff (parentDie : DwarfDie) (f : DieForest) {curLv maxLv : ℤ}
    (hlevels : curLv ≤ maxLv) :
    WalksByLevel maxLv parentDie f curLv ↔ f.DescendsLast (maxLv - curLv).toNat ∧
      (maxLv = -1 → ∀ path x, f.PathTo path x → path.length ≤ (maxLv - curLv).toNat) := by
  obtain ⟨k, rfl⟩ := Int.le.dest hlevels
  have hk : (curLv + (k : ℤ) - curLv).toNat = k := by omega
  rw [hk]
  constructor
  · intro hwalk
    have hwithin (visit : DieVisit) (hvisit : visit ∈ walkDIE (curLv + k) parentDie f curLv) :
        visit.curLv ≤ curLv + k := by
      have hmem := hwalk.subset (List.mem_map_of_mem hvisit)
      obtain ⟨e, he, heq⟩ := List.mem_map.mp hmem
      have hle := of_decide_eq_true (List.mem_filter.mp he).2
      have hcur := congrArg Prod.snd heq
      dsimp only at hcur
      omega
    have hsum := (hwalk.map fun visit => (curLv + k + 1 - visit.2).toNat).sum_eq
    obtain ⟨-, hlast⟩ := levelsLeft_walkDIE f parentDie curLv k rfl hwithin
    have hlisting := levelsLeft_listing (curLv + k) curLv f parentDie 0
    have hleft : (curLv + (k : ℤ) + 1 - (curLv + ((0 : ℕ) : ℤ))).toNat = k + 1 := by omega
    rw [hleft] at hlisting
    have hdescends := hlast (hlisting.symm.trans hsum.symm).le
    refine ⟨hdescends, fun hnone path x hpath => ?_⟩
    rw [hnone] at hwithin
    exact length_le_of_walkDIE hdescends parentDie curLv
      (fun visit hvisit => by rw [hnone]; exact hwithin visit hvisit) hpath
  · rintro ⟨hlast, hdepth⟩
    have hwalk := walkDIE_of_descendsLast hlast hdepth parentDie curLv 0 (by simp)
    rw [Nat.cast_zero, add_zero] at hwalk
    unfold WalksByLevel
    rw [hwalk]

/-- A walk down to level 1 keeps to the levels of a function without a sibling. -/
theorem lastFunction_walksByLevel :
    WalksByLevel 1 (plainDie 11 .compileUnit none)
      (.node (plainDie 60 .subprogram none) (.node (plainDie 70 .variable none) .absent .absent)
        .absent) 0 :=
  (walksByLevel_iff _ _ (by decide)).mpr
    ⟨⟨fun _ => rfl, ⟨fun _ => rfl, trivial⟩, trivial⟩, fun h => by cases h⟩

/-- The walk takes the second function for a DIE of level 1 and leaves its variable out. -/
theorem twoFunctions_not_walksByLevel :
    ¬WalksByLevel 1 (plainDie 11 .compileUnit none) twoFunctions 0 :=
  fun hwalk => absurd hwalk.length_eq (by decide)

end DwarfExpr
