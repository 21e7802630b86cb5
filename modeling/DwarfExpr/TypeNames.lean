import Mathlib.Algebra.Order.Ring.Nat
import Mathlib.Data.List.Flatten
import DwarfExpr.TypeChains

/-!
# The names of pointers and consts

`name` writes a const before the name of its base type and a pointer after it. So the name
tells how many consts and pointers there are above the named type, and not in which order: a
pointer to a const and a const pointer have the same name.
-/

namespace DwarfExpr

/-- Pointer and const DIEs that lead from an offset to the type at `target`, with their
tags. -/
inductive ModifierChain (info : DebugInfo) (target : DwarfOff) : DwarfOff → List DwTag → Prop
  | target : ModifierChain info target target []
  | modifier {offset ref : DwarfOff} {die : VarDie} {tag : DwTag} {tags : List DwTag}
      (hdie : info offset = some die) (htag : die.tag = .ok tag)
      (hkind : tag = .pointerType ∨ tag = .constType) (href : die.type = some ref)
      (hne : ref ≠ maxDwarfUnsigned) (hrest : ModifierChain info target ref tags) :
      ModifierChain info target offset (tag :: tags)

/-- The tags with one const for each run of them. -/
def mergeConsts : List DwTag → List DwTag
  | [] => []
  | tag :: tags =>
    if tag = .constType ∧ tags.head? = some .constType then mergeConsts tags
    else tag :: mergeConsts tags

/-- There are as many pointers in both chains and as many consts. -/
def SameCounts (tags tags' : List DwTag) : Prop :=
  tags.count .pointerType = tags'.count .pointerType ∧
    tags.count .constType = tags'.count .constType

/-- A text with so many prefixes and suffixes, as a list of characters. -/
def decorate (prefixes suffixes : ℕ) (text : List Char) : List Char :=
  (List.replicate prefixes "const ".toList).flatten ++ text ++ List.replicate suffixes '*'

theorem decorate_zero (text : List Char) : decorate 0 0 text = text := by
  simp [decorate]

theorem decorate_prefix (prefixes suffixes : ℕ) (text : List Char) :
    "const ".toList ++ decorate prefixes suffixes text =
      decorate (prefixes + 1) suffixes text := by
  simp [decorate, List.replicate_succ]

theorem decorate_suffix (prefixes suffixes : ℕ) (text : List Char) :
    decorate prefixes suffixes text ++ ['*'] = decorate prefixes (suffixes + 1) text := by
  simp [decorate, List.replicate_succ']

/-- The prefixes and suffixes can be counted: the suffixes as the stars that the text does not
have itself, and the prefixes by the length that is left. -/
theorem decorate_inj {m n m' n' : ℕ} {text : List Char} :
    decorate m n text = decorate m' n' text ↔ m = m' ∧ n = n' := by
  constructor
  · intro h
    have hstar (k : ℕ) : (List.replicate k "const ".toList).flatten.count '*' = 0 := by
      rw [List.count_eq_zero, List.mem_flatten]
      rintro ⟨word, hword, hmem⟩
      rw [(List.mem_replicate.mp hword).2] at hmem
      exact absurd hmem (by decide)
    have hlength (k : ℕ) : (List.replicate k "const ".toList).flatten.length = k * 6 := by
      rw [List.length_flatten, List.map_replicate, List.sum_replicate]
      rfl
    have hstars := congrArg (List.count '*') h
    have hsizes := congrArg List.length h
    simp only [decorate, List.count_append, List.count_replicate_self, hstar] at hstars
    simp only [decorate, List.length_append, List.length_replicate, hlength] at hsizes
    omega
  · rintro ⟨rfl, rfl⟩
    rfl

/-- A chain above a type that loads, loads with the name of that type and a prefix for each
const and a suffix for each pointer. Induction on the chain. -/
theorem ModifierChain.loads {info : DebugInfo} {target offset : DwarfOff} {tags : List DwTag}
    (hchain : ModifierChain info target offset tags) {base : DwarfType}
    (hbase : base.Loads info target) :
    ∃ type : DwarfType, type.Loads info offset ∧ type.name.toList =
      decorate (tags.count .constType) (tags.count .pointerType) base.name.toList := by
  induction hchain with
  | target => exact ⟨base, hbase, (decorate_zero _).symm⟩
  | @modifier offset ref die tag tags hdie htag hkind href hne _ ih =>
    obtain ⟨type, htype, hname⟩ := ih
    have hderived : tag.isDerivedType = true := by
      rcases hkind with rfl | rfl <;> rfl
    refine ⟨_, DwarfType.loads_derived hdie htag hderived href hne htype, ?_⟩
    rcases hkind with rfl | rfl
    · rw [DwarfType.name, if_pos rfl, String.toList_append, hname, List.count_cons_self,
        List.count_cons_of_ne (by decide), ← decorate_suffix]
      rfl
    · rw [DwarfType.name, if_neg (by decide), if_pos rfl, String.toList_append, hname,
        List.count_cons_self, List.count_cons_of_ne (by decide), ← decorate_prefix]

/-- Two chains above the same type have the same name exactly if they have the same counts. -/
theorem ModifierChain.name_eq_iff {info : DebugInfo} {target offset offset' : DwarfOff}
    {tags tags' : List DwTag} (hchain : ModifierChain info target offset tags)
    (hchain' : ModifierChain info target offset' tags') {base type type' : DwarfType}
    (hbase : base.Loads info target) (htype : type.Loads info offset)
    (htype' : type'.Loads info offset') : type.name = type'.name ↔ SameCounts tags tags' := by
  obtain ⟨loaded, hloaded, hname⟩ := hchain.loads hbase
  obtain ⟨loaded', hloaded', hname'⟩ := hchain'.loads hbase
  obtain rfl := Option.some.inj ((DwarfType.load_settles info offset).unique htype hloaded)
  obtain rfl := Option.some.inj ((DwarfType.load_settles info offset').unique htype' hloaded')
  rw [← String.toList_inj, hname, hname', decorate_inj]
  exact and_comm

/-- A chain consists of pointers and consts. -/
theorem ModifierChain.mem_tags {info : DebugInfo} {target offset : DwarfOff} {tags : List DwTag}
    (hchain : ModifierChain info target offset tags) :
    ∀ tag ∈ tags, tag = .pointerType ∨ tag = .constType := by
  induction hchain with
  | target => simp
  | modifier _ _ hkind _ _ _ ih => exact List.forall_mem_cons.mpr ⟨hkind, ih⟩

/-- One const for each run does not change the outermost tag. -/
theorem head?_mergeConsts (tags : List DwTag) : (mergeConsts tags).head? = tags.head? := by
  induction tags with
  | nil => rfl
  | cons tag tags ih =>
    rw [mergeConsts]
    split
    · rename_i hrun
      rw [ih, hrun.2, hrun.1, List.head?_cons]
    · rfl

/-- A sequence of two tags without the one repeats the other. -/
theorem eq_replicate_of_notMem {tags : List DwTag} {tag other : DwTag}
    (htags : ∀ t ∈ tags, t = other ∨ t = tag) (hnone : other ∉ tags) :
    tags = List.replicate (tags.count tag) tag := by
  have hall (t : DwTag) (ht : t ∈ tags) : t = tag :=
    (htags t ht).resolve_left fun h => hnone (h ▸ ht)
  rw [List.count_eq_length.mpr fun t ht => (hall t ht).symm]
  exact List.eq_replicate_iff.mpr ⟨rfl, hall⟩

/-- The counts tell a sequence of pointers and consts from all others exactly if it has no
pointer or no const. Otherwise the consts can stand in front or behind. -/
theorem merged_of_sameCounts_iff {tags : List DwTag}
    (htags : ∀ tag ∈ tags, tag = .pointerType ∨ tag = .constType) :
    (∀ tags' : List DwTag, (∀ tag ∈ tags', tag = .pointerType ∨ tag = .constType) →
        SameCounts tags tags' → mergeConsts tags = mergeConsts tags') ↔
      .pointerType ∉ tags ∨ .constType ∉ tags := by
  constructor
  · intro hmerged
    by_contra hboth
    obtain ⟨hpointer, hconst⟩ := not_or.mp hboth
    have hpointers := List.count_pos_iff.mpr (not_not.mp hpointer)
    have hconsts := List.count_pos_iff.mpr (not_not.mp hconst)
    have hfront := hmerged (List.replicate (tags.count .constType) .constType ++
        List.replicate (tags.count .pointerType) .pointerType)
      (by simp only [List.mem_append, List.mem_replicate]; tauto)
      ⟨by simp [List.count_replicate], by simp [List.count_replicate]⟩
    have hbehind := hmerged (List.replicate (tags.count .pointerType) .pointerType ++
        List.replicate (tags.count .constType) .constType)
      (by simp only [List.mem_append, List.mem_replicate]; tauto)
      ⟨by simp [List.count_replicate], by simp [List.count_replicate]⟩
    have hhead := congrArg List.head? (hfront.symm.trans hbehind)
    rw [head?_mergeConsts, head?_mergeConsts] at hhead
    obtain ⟨m, hm⟩ := Nat.exists_eq_succ_of_ne_zero hpointers.ne'
    obtain ⟨n, hn⟩ := Nat.exists_eq_succ_of_ne_zero hconsts.ne'
    rw [hm, hn, List.replicate_succ, List.replicate_succ] at hhead
    exact absurd hhead (by simp)
  · rintro hone tags' htags' ⟨hpointers, hconsts⟩
    rcases hone with hnone | hnone
    · have hnone' : .pointerType ∉ tags' := by
        rwa [← List.count_eq_zero, ← hpointers, List.count_eq_zero]
      rw [eq_replicate_of_notMem htags hnone, eq_replicate_of_notMem htags' hnone', hconsts]
    · have hnone' : .constType ∉ tags' := by
        rwa [← List.count_eq_zero, ← hconsts, List.count_eq_zero]
      rw [eq_replicate_of_notMem (fun t ht => (htags t ht).symm) hnone,
        eq_replicate_of_notMem (fun t ht => (htags' t ht).symm) hnone', hpointers]

/-- Types at the two offsets with the same name have the same sequence of tags, but for
repeated consts. -/
def NameDetermines (info : DebugInfo) (offset offset' : DwarfOff) (tags tags' : List DwTag) :
    Prop :=
  ∀ type type' : DwarfType, type.Loads info offset → type'.Loads info offset' →
    type.name = type'.name → mergeConsts tags = mergeConsts tags'

/-- Two chains above the same type are told apart by their names exactly if the names have to
tell no more than their counts: these differ, or the consts stand at the same places. All
others are told apart from a chain in this way exactly if it has no pointer or no const. -/
theorem ModifierChain.nameDetermines_iff {info : DebugInfo} {target offset offset' : DwarfOff}
    {tags tags' : List DwTag} (hchain : ModifierChain info target offset tags)
    (hchain' : ModifierChain info target offset' tags') {base : DwarfType}
    (hbase : base.Loads info target) :
    (NameDetermines info offset offset' tags tags' ↔
        ¬SameCounts tags tags' ∨ mergeConsts tags = mergeConsts tags') ∧
      ((∀ others : List DwTag, (∀ tag ∈ others, tag = .pointerType ∨ tag = .constType) →
          ¬SameCounts tags others ∨ mergeConsts tags = mergeConsts others) ↔
        .pointerType ∉ tags ∨ .constType ∉ tags) := by
  refine ⟨⟨fun hdetermines => ?_, fun hcondition type type' htype htype' hname => ?_⟩, ?_⟩
  · obtain ⟨type, htype, -⟩ := hchain.loads hbase
    obtain ⟨type', htype', -⟩ := hchain'.loads hbase
    refine not_or_of_imp fun hcounts => ?_
    exact hdetermines type type' htype htype'
      ((hchain.name_eq_iff hchain' hbase htype htype').mpr hcounts)
  · exact hcondition.resolve_left
      (not_not.mpr ((hchain.name_eq_iff hchain' hbase htype htype').mp hname))
  · rw [← merged_of_sameCounts_iff hchain.mem_tags]
    simp only [imp_iff_not_or]

/-- A pointer to a const number, and a const pointer to the number. -/
def constsAndPointers : DebugInfo := fun offset =>
  if offset = 1 then some ⟨.ok .pointerType, .noEntry, none, none, some 2, none⟩
  else if offset = 2 then some ⟨.ok .constType, .noEntry, none, none, some 3, none⟩
  else if offset = 3 then some ⟨.ok .baseType, .ok "int", none, some 4, none, none⟩
  else if offset = 4 then some ⟨.ok .constType, .noEntry, none, none, some 5, none⟩
  else if offset = 5 then some ⟨.ok .pointerType, .noEntry, none, none, some 3, none⟩
  else none

/-- The chain of the pointer to a const number. -/
theorem pointerToConst_chain :
    ModifierChain constsAndPointers 3 1 [.pointerType, .constType] :=
  .modifier rfl rfl (Or.inl rfl) rfl (by decide)
    (.modifier rfl rfl (Or.inr rfl) rfl (by decide) .target)

/-- The chain of the const pointer. -/
theorem constPointer_chain : ModifierChain constsAndPointers 3 4 [.constType, .pointerType] :=
  .modifier rfl rfl (Or.inr rfl) rfl (by decide)
    (.modifier rfl rfl (Or.inl rfl) rfl (by decide) .target)

/-- The pointer to a const number is told apart from the number. -/
theorem pointerToConst_nameDetermines :
    NameDetermines constsAndPointers 1 3 [.pointerType, .constType] [] :=
  (pointerToConst_chain.nameDetermines_iff .target ⟨1, rfl⟩).1.mpr
    (Or.inl fun hcounts => absurd hcounts.1 (by decide))

/-- Both types have the name `const int*`. -/
theorem constPointer_not_nameDetermines :
    ModifierChain constsAndPointers 3 1 [.pointerType, .constType] ∧
      ModifierChain constsAndPointers 3 4 [.constType, .pointerType] ∧
      ¬NameDetermines constsAndPointers 1 4 [.pointerType, .constType]
        [.constType, .pointerType] := by
  refine ⟨pointerToConst_chain, constPointer_chain, fun hdetermines => ?_⟩
  exact absurd (hdetermines _ _ ⟨3, rfl⟩ ⟨3, rfl⟩ rfl) (by decide)

end DwarfExpr
