import Mathlib.Data.List.Basic
import Mathlib.Data.List.Nodup
import Mathlib.Data.List.Count

/-!
# Cells that are allocated and freed

A heap of cells with addresses. A cell is freed once: freeing it again is a fault, and so is
freeing what was never allocated. What is still live in the end has leaked.
-/

/-- The cells by their addresses. An entry without contents has been freed. -/
structure CellHeap (α : Type*) where
  cells : List (Option α)

namespace CellHeap

variable {α : Type*} {h h' : CellHeap α} {p q : ℕ} {x : α}

/-- A heap on which nothing has been allocated. -/
def empty : CellHeap α := ⟨[]⟩

/-- The contents of a live cell. -/
def get (h : CellHeap α) (p : ℕ) : Option α := h.cells[p]?.join

/-- Allocate a cell: its address and the heap. -/
def alloc (h : CellHeap α) (x : α) : ℕ × CellHeap α := (h.cells.length, ⟨h.cells ++ [some x]⟩)

/-- Store into a cell. -/
def set (h : CellHeap α) (p : ℕ) (x : α) : CellHeap α := ⟨h.cells.set p (some x)⟩

/-- Free a live cell. -/
def free (h : CellHeap α) (p : ℕ) : Option (CellHeap α) :=
  (h.get p).map fun _ => ⟨h.cells.set p none⟩

/-- Free cells one after the other. -/
def freeAll (h : CellHeap α) : List ℕ → Option (CellHeap α)
  | [] => some h
  | p :: ps => (h.free p).bind fun h => h.freeAll ps

/-- The number of live cells. -/
def live (h : CellHeap α) : ℕ := h.cells.countP Option.isSome

@[simp] theorem live_empty : (empty : CellHeap α).live = 0 := rfl

@[simp] theorem get_alloc_self (h : CellHeap α) (x : α) :
    (h.alloc x).2.get (h.alloc x).1 = some x := by
  simp [alloc, get]

/-- A cell to be allocated is not live yet. -/
@[simp] theorem get_alloc_fst (h : CellHeap α) (x : α) : h.get (h.alloc x).1 = none := by
  simp [alloc, get]

/-- Allocation leaves the live cells alone. -/
theorem get_alloc_of_ne (hp : p ≠ (h.alloc x).1) : (h.alloc x).2.get p = h.get p := by
  have hp' : p ≠ h.cells.length := hp
  by_cases hlt : p < h.cells.length
  · simp only [alloc, get, List.getElem?_append_left hlt]
  · have hbehind : ¬p < (h.cells ++ [some x]).length := by
      rw [List.length_append, List.length_singleton]
      omega
    simp only [alloc, get, List.getElem?_eq_none (Nat.not_lt.mp hlt),
      List.getElem?_eq_none (Nat.not_lt.mp hbehind)]

/-- A live cell has an address. -/
theorem lt_of_get (hp : h.get p = some x) : p < h.cells.length := by
  by_contra hnot
  rw [get, List.getElem?_eq_none (Nat.not_lt.mp hnot)] at hp
  cases hp

theorem getElem_of_get (hp : h.get p = some x) : h.cells[p]? = some (some x) :=
  Option.join_eq_some_iff.mp hp

theorem get_set_self {y : α} (hp : h.get p = some y) : (h.set p x).get p = some x := by
  simp [set, get, lt_of_get hp]

theorem get_set_of_ne (hq : q ≠ p) : (h.set p x).get q = h.get q := by
  simp only [set, get, List.getElem?_set_ne (Ne.symm hq)]

/-- One more cell is live. -/
theorem live_alloc (h : CellHeap α) (x : α) : (h.alloc x).2.live = h.live + 1 := by
  simp [alloc, live, List.countP_append]

/-- How the number of live cells changes with one of them. -/
theorem countP_set_add_one (hp : h.get p = some x) (y : Option α) :
    (h.cells.set p y).countP Option.isSome + 1 =
      h.live + if y.isSome = true then 1 else 0 := by
  have hlt := lt_of_get hp
  have hcell := getElem_of_get hp
  have hpos : 0 < h.cells.countP Option.isSome :=
    List.countP_pos_iff.mpr ⟨some x, List.mem_of_getElem? hcell, rfl⟩
  rw [List.getElem?_eq_getElem hlt, Option.some_inj] at hcell
  rw [List.countP_set hlt, hcell, live]
  simp only [Option.isSome_some, if_true]
  omega

/-- A store changes no cell's being live. -/
theorem live_set {y : α} (hp : h.get p = some y) : (h.set p x).live = h.live := by
  have hcount := countP_set_add_one hp (some x)
  simp only [Option.isSome_some, if_true] at hcount
  exact Nat.succ.inj hcount

/-- A live cell is freed: it is not live afterwards, and the others are as before. -/
theorem free_of_get (hp : h.get p = some x) :
    ∃ h', h.free p = some h' ∧ h'.get p = none ∧ (∀ q, q ≠ p → h'.get q = h.get q) ∧
      h'.live + 1 = h.live := by
  have hlt := lt_of_get hp
  refine ⟨⟨h.cells.set p none⟩, by rw [free, hp]; rfl, ?_, ?_, ?_⟩
  · simp [get, hlt]
  · intro q hq
    simp only [get, List.getElem?_set_ne (Ne.symm hq)]
  · exact countP_set_add_one hp none

/-- All cells that are live on the first heap are on the second, with the same contents. -/
def Keeps (h h' : CellHeap α) : Prop := ∀ p x, h.get p = some x → h'.get p = some x

theorem Keeps.refl (h : CellHeap α) : h.Keeps h := fun _ _ hp => hp

theorem Keeps.trans {h'' : CellHeap α} (hfirst : h.Keeps h') (hsecond : h'.Keeps h'') :
    h.Keeps h'' := fun p x hp => hsecond p x (hfirst p x hp)

/-- A cell that is not live any more was not live before. -/
theorem Keeps.get_eq_none (hkeeps : h.Keeps h') (hp : h'.get p = none) : h.get p = none := by
  cases hcell : h.get p with
  | none => rfl
  | some x =>
    rw [hkeeps p x hcell] at hp
    cases hp

theorem keeps_alloc (h : CellHeap α) (x : α) : h.Keeps (h.alloc x).2 := by
  intro p y hp
  have hne : p ≠ (h.alloc x).1 := by
    rintro rfl
    rw [get_alloc_fst] at hp
    cases hp
  rw [get_alloc_of_ne hne, hp]

/-- Freeing a live cell keeps the others. -/
theorem Keeps.free (hkeeps : h.Keeps h') (hp : h.get p = none) (hlive : h'.get p = some x) :
    ∃ h'', h'.free p = some h'' ∧ h.Keeps h'' ∧ (∀ q, q ≠ p → h''.get q = h'.get q) ∧
      h''.live + 1 = h'.live := by
  obtain ⟨h'', hfree, -, hother, hcount⟩ := free_of_get hlive
  refine ⟨h'', hfree, ?_, hother, hcount⟩
  intro q y hq
  have hne : q ≠ p := by
    rintro rfl
    rw [hp] at hq
    cases hq
  rw [hother q hne]
  exact hkeeps q y hq

/-- Different live cells are all freed, each once, and no other. Induction on the cells. -/
theorem freeAll_of_nodup {ps : List ℕ} (hps : ps.Nodup) (hlive : ∀ p ∈ ps, (h.get p).isSome) :
    ∃ h', h.freeAll ps = some h' ∧ (∀ p ∈ ps, h'.get p = none) ∧
      (∀ q, q ∉ ps → h'.get q = h.get q) ∧ h'.live + ps.length = h.live := by
  induction ps generalizing h with
  | nil => exact ⟨h, rfl, by simp, by simp, rfl⟩
  | cons p ps ih =>
    obtain ⟨hnot, hps⟩ := List.nodup_cons.mp hps
    obtain ⟨hp, hmore⟩ := List.forall_mem_cons.mp hlive
    obtain ⟨x, hx⟩ := Option.isSome_iff_exists.mp hp
    obtain ⟨h₁, hfree, hnone, hother, hcount⟩ := free_of_get hx
    have hmore₁ : ∀ q ∈ ps, (h₁.get q).isSome := by
      intro q hq
      rw [hother q fun heq => hnot (heq ▸ hq)]
      exact hmore q hq
    obtain ⟨h₂, hfrees, hnones, hothers, hcounts⟩ := ih hps hmore₁
    refine ⟨h₂, by rw [freeAll, hfree, Option.bind_some, hfrees], ?_, ?_, ?_⟩
    · intro q hq
      rcases List.mem_cons.mp hq with rfl | hq
      · rw [hothers q hnot, hnone]
      · exact hnones q hq
    · intro q hq
      rw [List.mem_cons, not_or] at hq
      rw [hothers q hq.2, hother q hq.1]
    · rw [List.length_cons]
      omega

end CellHeap
