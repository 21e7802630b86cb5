import Mathlib.Data.List.Basic

/-!
# Forests behind first-child and next-sibling links

A reader of a tree file holds one entry and asks for its first child and its
next sibling. The forest below is what such a reader can see from an entry on.
Besides its pre-order listing, the file defines the part that remains when a
level is dropped as soon as its first entry satisfies a given test. That part
describes walks which give up on a level from its first entry alone.
-/

/-- An entry with its first child and its next sibling. `absent` is the answer
"there is none" to either question and `unreadable` the answer "cannot tell". -/
inductive SiblingForest (α : Type*) where
  | absent
  | unreadable
  | node (entry : α) (children siblings : SiblingForest α)
  deriving DecidableEq, Repr

namespace SiblingForest

variable {α : Type*}

/-- All entries of a forest in document order. -/
def preorder : SiblingForest α → List α
  | absent => []
  | unreadable => []
  | node entry children siblings => entry :: (children.preorder ++ siblings.preorder)

/-- Every child and sibling link of the forest can be followed. -/
def Readable : SiblingForest α → Prop
  | absent => True
  | unreadable => False
  | node _ children siblings => children.Readable ∧ siblings.Readable

/-- Readability of a finite forest is decided by visiting its links. -/
instance decidableReadable : (f : SiblingForest α) → Decidable f.Readable
  | absent => isTrue trivial
  | unreadable => isFalse id
  | node _ children siblings =>
      have := decidableReadable children
      have := decidableReadable siblings
      inferInstanceAs (Decidable (_ ∧ _))

/-- The first entry of a level satisfies the test. -/
def beginsWith (hide : α → Bool) : SiblingForest α → Bool
  | node entry _ _ => hide entry
  | _ => false

/-- Drop, everywhere below the given level, each level whose first entry
satisfies the test. The given level itself is kept. -/
def pruneBelow (hide : α → Bool) : SiblingForest α → SiblingForest α
  | absent => absent
  | unreadable => unreadable
  | node entry children siblings =>
      node entry (if children.beginsWith hide then absent else children.pruneBelow hide)
        (siblings.pruneBelow hide)

/-- Drop each level whose first entry satisfies the test. -/
def prune (hide : α → Bool) (f : SiblingForest α) : SiblingForest α :=
  if f.beginsWith hide then absent else f.pruneBelow hide

/-- The entries, in document order, that lie in no dropped level. -/
def exposed (hide : α → Bool) (f : SiblingForest α) : List α := (f.prune hide).preorder

@[simp] theorem preorder_absent : (absent : SiblingForest α).preorder = [] := rfl

@[simp] theorem preorder_unreadable : (unreadable : SiblingForest α).preorder = [] := rfl

@[simp] theorem preorder_node (entry : α) (children siblings : SiblingForest α) :
    (node entry children siblings).preorder =
      entry :: (children.preorder ++ siblings.preorder) := rfl

/-- A level that begins with a hidden entry exposes nothing. -/
theorem exposed_of_beginsWith {hide : α → Bool} {f : SiblingForest α}
    (h : f.beginsWith hide = true) : f.exposed hide = [] := by
  simp [exposed, prune, h]

/-- The kept level lists its first entry, what its children expose, and then the
remaining siblings of the same kept level. -/
@[simp] theorem preorder_pruneBelow_node (hide : α → Bool) (entry : α)
    (children siblings : SiblingForest α) :
    ((node entry children siblings).pruneBelow hide).preorder =
      entry :: (children.exposed hide ++ (siblings.pruneBelow hide).preorder) := rfl

/-- A level that does not begin with a hidden entry is kept. -/
theorem exposed_of_not_beginsWith {hide : α → Bool} {f : SiblingForest α}
    (h : f.beginsWith hide = false) : f.exposed hide = (f.pruneBelow hide).preorder := by
  simp [exposed, prune, h]

/-- The entries of a level as they are met on the way along it, which ends at an entry whose
child link cannot be followed. -/
def sweep : SiblingForest α → List α
  | absent => []
  | unreadable => []
  | node entry unreadable _ => [entry]
  | node entry _ siblings => entry :: siblings.sweep

/-- What is met along a level is listed. -/
theorem mem_preorder_of_mem_sweep {f : SiblingForest α} {x : α} (h : x ∈ f.sweep) :
    x ∈ f.preorder := by
  induction f with
  | absent | unreadable => cases h
  | node entry children siblings _ ih =>
    cases children <;> simp only [sweep, List.mem_cons, List.not_mem_nil, or_false] at h <;>
      simp only [preorder_node, List.mem_cons, List.mem_append]
    · exact h.imp id fun hmem => Or.inr (ih hmem)
    · exact Or.inl h
    · exact h.imp id fun hmem => Or.inr (ih hmem)

/-- The second forest is what is seen of the first from one of its entries on. -/
inductive Sees : SiblingForest α → SiblingForest α → Prop
  | here {f : SiblingForest α} : Sees f f
  | inChildren {entry : α} {children siblings g : SiblingForest α} (h : Sees children g) :
      Sees (node entry children siblings) g
  | inSiblings {entry : α} {children siblings g : SiblingForest α} (h : Sees siblings g) :
      Sees (node entry children siblings) g

/-- What is seen from an entry on is listed in the same order. -/
theorem Sees.sublist {f g : SiblingForest α} (h : f.Sees g) :
    List.Sublist g.preorder f.preorder := by
  induction h with
  | here => exact .refl _
  | inChildren _ ih => exact .cons _ (ih.trans (List.sublist_append_left _ _))
  | inSiblings _ ih => exact .cons _ (ih.trans (List.sublist_append_right _ _))

/-- The entry occurs in the forest below the entries of the path, the outermost first. -/
inductive PathTo : SiblingForest α → List α → α → Prop
  | here {entry : α} {children siblings : SiblingForest α} :
      PathTo (node entry children siblings) [] entry
  | inChildren {entry x : α} {children siblings : SiblingForest α} {path : List α}
      (h : PathTo children path x) : PathTo (node entry children siblings) (entry :: path) x
  | inSiblings {entry x : α} {children siblings : SiblingForest α} {path : List α}
      (h : PathTo siblings path x) : PathTo (node entry children siblings) path x

/-- An entry with a path is listed. -/
theorem PathTo.mem_preorder {f : SiblingForest α} {path : List α} {x : α}
    (h : f.PathTo path x) : x ∈ f.preorder := by
  induction h with
  | here => simp
  | inChildren _ ih => simp [ih]
  | inSiblings _ ih => simp [ih]

/-- In a forest without repeated entries each entry has one path. Induction on the first
path. -/
theorem PathTo.unique {f : SiblingForest α} (hdistinct : f.preorder.Nodup) {path path' : List α}
    {x : α} (h : f.PathTo path x) (h' : f.PathTo path' x) : path = path' := by
  induction h generalizing path' with
  | @here entry children siblings =>
    have hfresh := (List.nodup_cons.mp hdistinct).1
    cases h' with
    | here => rfl
    | inChildren hbelow => exact absurd (List.mem_append_left _ hbelow.mem_preorder) hfresh
    | inSiblings hbeside => exact absurd (List.mem_append_right _ hbeside.mem_preorder) hfresh
  | @inChildren entry x children siblings path hbelow ih =>
    obtain ⟨hfresh, hrest⟩ := List.nodup_cons.mp hdistinct
    obtain ⟨hchildren, -, hapart⟩ := List.nodup_append.mp hrest
    cases h' with
    | here => exact absurd (List.mem_append_left _ hbelow.mem_preorder) hfresh
    | inChildren hbelow' => rw [ih hchildren hbelow']
    | inSiblings hbeside =>
      exact absurd rfl (hapart _ hbelow.mem_preorder _ hbeside.mem_preorder)
  | @inSiblings entry x children siblings path hbeside ih =>
    obtain ⟨hfresh, hrest⟩ := List.nodup_cons.mp hdistinct
    obtain ⟨-, hsiblings, hapart⟩ := List.nodup_append.mp hrest
    cases h' with
    | here => exact absurd (List.mem_append_right _ hbeside.mem_preorder) hfresh
    | inChildren hbelow => exact absurd rfl (hapart _ hbelow.mem_preorder _ hbeside.mem_preorder)
    | inSiblings hbeside' => exact ih hsiblings hbeside'

/-- The first exposed entry that passes a test lies below entries that do not. Induction on
the forest, for the kept level and for the level as it may be dropped. -/
theorem exists_path_of_find? {hide p : α → Bool} {f : SiblingForest α} {x : α}
    (hfind : (f.pruneBelow hide).preorder.find? p = some x) :
    ∃ path, f.PathTo path x ∧ ∀ a ∈ path, p a = false := by
  induction f with
  | absent | unreadable => cases hfind
  | node entry children siblings ihc ihs =>
    rw [preorder_pruneBelow_node] at hfind
    cases hentry : p entry with
    | true =>
      rw [List.find?_cons_of_pos hentry] at hfind
      cases hfind
      exact ⟨[], .here, by simp⟩
    | false =>
      rw [List.find?_cons_of_neg (by simp [hentry]), List.find?_append] at hfind
      cases hbelow : (children.exposed hide).find? p with
      | some y =>
        rw [hbelow, Option.some_or] at hfind
        cases hfind
        have hkept : children.beginsWith hide = false := by
          by_contra hhidden
          rw [exposed_of_beginsWith (by simpa using hhidden)] at hbelow
          cases hbelow
        rw [exposed_of_not_beginsWith hkept] at hbelow
        obtain ⟨path, hpath, hfails⟩ := ihc hbelow
        exact ⟨entry :: path, .inChildren hpath, List.forall_mem_cons.mpr ⟨hentry, hfails⟩⟩
      | none =>
        rw [hbelow, Option.none_or] at hfind
        obtain ⟨path, hpath, hfails⟩ := ihs hfind
        exact ⟨path, .inSiblings hpath, hfails⟩

/-- An entry of a forest with the entry that it stands below and its depth. -/
structure ListedEntry (α : Type*) where
  above : α
  entry : α
  depth : ℕ
  deriving DecidableEq, Repr

/-- All entries in document order, below the given one and from the given depth on. -/
def listing (above : α) (depth : ℕ) : SiblingForest α → List (ListedEntry α)
  | absent => []
  | unreadable => []
  | node entry children siblings =>
      ⟨above, entry, depth⟩ :: (children.listing entry (depth + 1) ++ siblings.listing above depth)

@[simp] theorem listing_node (above : α) (depth : ℕ) (entry : α)
    (children siblings : SiblingForest α) :
    (node entry children siblings).listing above depth =
      ⟨above, entry, depth⟩ ::
        (children.listing entry (depth + 1) ++ siblings.listing above depth) := rfl

/-- The entries are listed in document order. -/
theorem map_entry_listing (above : α) (depth : ℕ) (f : SiblingForest α) :
    (f.listing above depth).map ListedEntry.entry = f.preorder := by
  induction f generalizing above depth with
  | absent | unreadable => rfl
  | node entry children siblings ihc ihs => simp [ihc, ihs]

/-- An entry is listed below the last entry of its path and as deep as its path is long.
Induction on the forest. -/
theorem mem_listing_iff (above : α) (depth : ℕ) (f : SiblingForest α) (e : ListedEntry α) :
    e ∈ f.listing above depth ↔ ∃ path, f.PathTo path e.entry ∧
      e.above = path.getLastD above ∧ e.depth = depth + path.length := by
  induction f generalizing above depth with
  | absent | unreadable =>
    refine ⟨fun h => (List.not_mem_nil h).elim, ?_⟩
    rintro ⟨path, hpath, -⟩
    cases hpath
  | node entry children siblings ihc ihs =>
    rw [listing_node, List.mem_cons, List.mem_append, ihc, ihs]
    constructor
    · rintro (rfl | ⟨path, hpath, habove, hdepth⟩ | ⟨path, hpath, habove, hdepth⟩)
      · exact ⟨[], .here, rfl, rfl⟩
      · exact ⟨entry :: path, .inChildren hpath, by rw [habove, List.getLastD_cons],
          by rw [hdepth, List.length_cons]; omega⟩
      · exact ⟨path, .inSiblings hpath, habove, hdepth⟩
    · rintro ⟨path, hpath, habove, hdepth⟩
      obtain ⟨above', _, depth'⟩ := e
      cases hpath with
      | here =>
        obtain rfl : above' = above := habove
        obtain rfl : depth' = depth := hdepth
        exact Or.inl rfl
      | @inChildren _ _ _ _ path hbelow =>
        rw [List.getLastD_cons] at habove
        exact Or.inr (Or.inl ⟨path, hbelow, habove, by rw [hdepth, List.length_cons]; omega⟩)
      | inSiblings hbeside => exact Or.inr (Or.inr ⟨path, hbeside, habove, hdepth⟩)

/-- Nothing is listed at a smaller depth than the first. -/
theorem le_depth_of_mem_listing {above : α} {depth : ℕ} {f : SiblingForest α}
    {e : ListedEntry α} (he : e ∈ f.listing above depth) : depth ≤ e.depth := by
  obtain ⟨path, -, -, hdepth⟩ := (mem_listing_iff above depth f e).mp he
  omega

/-- A forest without entries shows none, or cannot be read. -/
theorem preorder_eq_nil_iff (f : SiblingForest α) :
    f.preorder = [] ↔ f = absent ∨ f = unreadable := by
  cases f <;> simp

/-- From the top down to the given depth, an entry with an unreadable child link is the last
of its level, and so is an entry above that depth with entries below it. -/
def DescendsLast : ℕ → SiblingForest α → Prop
  | _, absent => True
  | _, unreadable => True
  | 0, node _ children siblings =>
      (children = unreadable → siblings.preorder = []) ∧ siblings.DescendsLast 0
  | depth + 1, node _ children siblings =>
      (children ≠ absent → siblings.preorder = []) ∧ children.DescendsLast depth ∧
        siblings.DescendsLast (depth + 1)

/-- What holds of the entries of a level holds of those behind the first. -/
theorem DescendsLast.siblings {depth : ℕ} {entry : α} {children siblings : SiblingForest α}
    (h : (node entry children siblings).DescendsLast depth) : siblings.DescendsLast depth := by
  cases depth with
  | zero => exact h.2
  | succ depth => exact h.2.2

/-- An entry with an unreadable child link is not followed by another. -/
theorem DescendsLast.preorder_siblings {depth : ℕ} {entry : α} {siblings : SiblingForest α}
    (h : (node entry unreadable siblings).DescendsLast depth) : siblings.preorder = [] := by
  cases depth with
  | zero => exact h.1 rfl
  | succ depth => exact h.1 (by simp)

/-- A forest without entries has none that is followed by another. -/
theorem descendsLast_of_preorder_eq_nil {f : SiblingForest α} (hempty : f.preorder = [])
    (depth : ℕ) : f.DescendsLast depth := by
  rcases f.preorder_eq_nil_iff.mp hempty with rfl | rfl <;> cases depth <;> trivial

end SiblingForest
