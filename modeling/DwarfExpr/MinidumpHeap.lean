import Mathlib.Data.List.AList
import DwarfExpr.Lib.CellHeap
import DwarfExpr.MinidumpContexts

/-!
# Contexts on the heap

A `Minidump` keeps pointers to its contexts, and a context a pointer to its record, which the
destructors follow with the flags of the context in hand. Reading with pointers gives what
reading without them gives, and no address is freed twice or used after it has been freed:
taking a `Minidump` down only fails at a context whose flags name the wrong record.
-/

namespace DwarfExpr

open InputStream (slice openAt)

/-- What is allocated: a `MinidumpContext` with its pointer and its flags, or a record. -/
inductive MinidumpCell where
  | context (record : Option ℕ) (contextFlags : ℕ)
  | record (record : ContextRecord)

/-- `MinidumpContext::Read` for the context at an address: success, the stream and the heap.
The whole is `none` if the process crashes. -/
def MinidumpContext.readAt (p : ℕ) (loc : MDLocationDescriptor) (s : InputStream)
    (h : CellHeap MinidumpCell) : Option (Bool × InputStream × CellHeap MinidumpCell) :=
  match seekTo s loc.rva with
  | (false, s) => some (false, s, h)
  | (true, s) =>
    if loc.dataSize = 1232 then
      let (q, h) := h.alloc (.record (.amd64 (.zero 1232)))
      let h := h.set p (.context (some q) 0)
      match readBytes s 1232 with
      -- The record stays with the context, whose flags are still 0.
      | (false, got, s) =>
        some (false, s, h.set q (.record (.amd64 ((RawObject.zero 1232).store 0 got))))
      | (true, got, s) =>
        let amd64 := (RawObject.zero 1232).store 0 got
        let h := h.set q (.record (.amd64 amd64))
        some (true, s, h.set p (.context (some q) (amd64.word 48 4)))
    else if loc.dataSize = sizeofContextPPC64 then some (false, s, h)
    else if loc.dataSize = 796 then
      match readBytes s 8 with
      | (false, _, s) => some (false, s, h)
      | (true, flags, s) =>
        if cpuType (LittleEndian.decode flags) ≠ mdContextARM64Old then some (false, s, h)
        else
          match readBytes s (796 - 8) with
          | (false, _, s) => some (false, s, h)
          | (true, got, s) =>
            let arm64 := convertOldARM64Context ((RawObject.zero 796).store 8 got)
            let (q, h) := h.alloc (.record (.arm64 arm64))
            some (true, s, h.set p (.context (some q) (arm64.word 0 4)))
    else
      match readBytesToNull s 4 with
      | none => none
      | some (_, s) => some (false, s, h)

/-- `delete` of a `MinidumpContext`: its destructor deletes the record as what the flags name,
and only if they name something. It is `none` if an address is not live or holds something
else. -/
def deleteContext (h : CellHeap MinidumpCell) (p : ℕ) : Option (CellHeap MinidumpCell) :=
  match h.get p with
  | some (.context record contextFlags) =>
    match accessedMember contextFlags, record with
    | some member, some q =>
      match h.get q with
      | some (.record r) => if r.member = member then h.freeAll [q, p] else none
      | _ => none
    | _, _ => h.freeAll [p]
  | _ => none

/-- `contexts_`, by thread ids. -/
abbrev ContextPointers := AList fun _ : ℕ => ℕ

/-- The addresses that `contexts_` holds. -/
def pointersOf (contexts : ContextPointers) : List ℕ := contexts.entries.map Sigma.snd

/-- A `Minidump` with its contexts on the heap. The other fields are those of `rest`. -/
structure MinidumpOnHeap where
  rest : Minidump
  contexts : ContextPointers
  heap : CellHeap MinidumpCell

/-- The loop of `ReadThreadListStream` over the threads. -/
def readContextsAt : List MDRawThread → ContextPointers → InputStream → CellHeap MinidumpCell →
    Option (Bool × ContextPointers × InputStream × CellHeap MinidumpCell)
  | [], contexts, s, h => some (true, contexts, s, h)
  | thread :: rest, contexts, s, h =>
    let (p, h) := h.alloc (.context none 0)
    match MinidumpContext.readAt p thread.threadContext s h with
    | none => none
    | some (false, s, h) => (deleteContext h p).map fun h => (false, contexts, s, h)
    | some (true, s, h) =>
      -- `insert` keeps an entry that exists, and then nothing leads to the new context.
      let contexts :=
        if thread.threadId ∈ contexts then contexts else contexts.insert thread.threadId p
      readContextsAt rest contexts s h

namespace MinidumpOnHeap

/-- `Minidump::ReadThreadListStream`. -/
def readThreadListStream (m : MinidumpOnHeap) (directory : MDRawDirectory) :
    Option (Bool × MinidumpOnHeap) :=
  match readStream directory m.rest.threads 48 10000 m.rest.stream with
  | (false, threads, s) =>
    some (false, { m with rest := { m.rest with threads := threads, stream := s } })
  | (true, threads, s) =>
    (readContextsAt threads m.contexts s m.heap).map fun (ok, contexts, s, h) =>
      (ok, ⟨{ m.rest with threads := threads, stream := s }, contexts, h⟩)

/-- `Minidump::ReadExceptionStream`. -/
def readExceptionStream (m : MinidumpOnHeap) (directory : MDRawDirectory) :
    Option (Bool × MinidumpOnHeap) :=
  match readStreamSingle directory m.rest.exception m.rest.stream with
  | (false, exception, s) =>
    some (false, { m with rest := { m.rest with exception := exception, stream := s } })
  | (true, exception, s) =>
    let (p, h) := m.heap.alloc (.context none 0)
    match MinidumpContext.readAt p (MDRawExceptionStream.threadContext exception) s h with
    | none => none
    | some (false, s, h) =>
      (deleteContext h p).map fun h =>
        (false, ⟨{ m.rest with exception := exception, stream := s }, m.contexts, h⟩)
    | some (true, s, h) =>
      some (true, ⟨{ m.rest with exception := exception, stream := s },
        m.contexts.insert (MDRawExceptionStream.threadId exception) p, h⟩)

/-- The parse that `Read` makes of one directory entry. -/
def parse (m : MinidumpOnHeap) (directory : MDRawDirectory) : Option (Bool × MinidumpOnHeap) :=
  let inRest (result : Bool × Minidump) := some (result.1, { m with rest := result.2 })
  match directory.handledType with
  | some .threadList => m.readThreadListStream directory
  | some .moduleList => inRest (m.rest.readModuleListStream directory)
  | some .memoryList => inRest (m.rest.readMemoryListStream directory)
  | some .exception => m.readExceptionStream directory
  | some .systemInfo => inRest (m.rest.readSystemInfoStream directory)
  | none => some (true, m)

/-- The loop of `Minidump::Read` over the directory. -/
def readDirectories : List MDRawDirectory → MinidumpOnHeap → Option MinidumpOnHeap
  | [], m => some m
  | directory :: rest, m =>
    match m.parse directory with
    | none => none
    | some (_, m) => readDirectories rest m

/-- `Minidump::Read`, after `Open`. -/
def read (image : List UInt8) : Option (Bool × MinidumpOnHeap) :=
  let (ok, m) := (Minidump.ofFile image).readHeader
  if !ok then some (false, ⟨m, ∅, .empty⟩)
  else
    let (ok, m) := m.readDirectoryList
    if !ok then some (false, ⟨m, ∅, .empty⟩)
    else (readDirectories m.directories ⟨m, ∅, .empty⟩).map fun m => (true, m)

/-- The loop of `~Minidump` over the contexts, in some order. -/
def deleteContexts (h : CellHeap MinidumpCell) : List ℕ → Option (CellHeap MinidumpCell)
  | [] => some h
  | p :: ps => (deleteContext h p).bind fun h => deleteContexts h ps

end MinidumpOnHeap

/-- The context that is found through a pointer. -/
def heapContext (h : CellHeap MinidumpCell) (p : ℕ) : Option MinidumpContext :=
  match h.get p with
  | some (.context (some q) contextFlags) =>
    match h.get q with
    | some (.record r) => some ⟨r, contextFlags⟩
    | _ => none
  | _ => none

/-- What `contexts_` is, with the contexts in place of the pointers. -/
def contextsView (contexts : ContextPointers) (h : CellHeap MinidumpCell) :
    ℕ → Option MinidumpContext :=
  fun id => (contexts.lookup id).bind (heapContext h)

/-- The `Minidump` without pointers. -/
def MinidumpOnHeap.view (m : MinidumpOnHeap) : Minidump :=
  { m.rest with contexts := contextsView m.contexts m.heap }

/-- The addresses of a context and of its record. -/
def footprint (h : CellHeap MinidumpCell) (p : ℕ) : List ℕ :=
  match h.get p with
  | some (.context (some q) _) => [p, q]
  | _ => [p]

/-- The pointers lead to contexts with records, no two to the same address. -/
structure Owned (ps : List ℕ) (h : CellHeap MinidumpCell) : Prop where
  nodup : (ps.flatMap (footprint h)).Nodup
  whole : ∀ p ∈ ps, (heapContext h p).isSome

/-- All that is live on a heap is the same on another one. -/
def Keeps (h h' : CellHeap MinidumpCell) : Prop := ∀ x, (h.get x).isSome → h'.get x = h.get x

section

variable {h h' : CellHeap MinidumpCell} {p q : ℕ} {c : MinidumpContext}

/-- A context that is found: its cell and the cell of its record. -/
theorem heapContext_eq_some_iff : heapContext h p = some c ↔
    ∃ q, h.get p = some (.context (some q) c.contextFlags) ∧
      h.get q = some (.record c.context) := by
  unfold heapContext
  constructor
  · intro hc
    split at hc
    · split at hc
      · rename_i _ q flags hp _ r hq
        obtain rfl := Option.some.inj hc
        exact ⟨q, hp, hq⟩
      · cases hc
    · cases hc
  · rintro ⟨q, hp, hq⟩
    simp only [hp, hq]

theorem footprint_of_get {flags : ℕ} (hp : h.get p = some (.context (some q) flags)) :
    footprint h p = [p, q] := by
  simp only [footprint, hp]

/-- The cells of a context are live. -/
theorem isSome_of_mem_footprint (hc : (heapContext h p).isSome) {x : ℕ}
    (hx : x ∈ footprint h p) : (h.get x).isSome := by
  obtain ⟨c, hc⟩ := Option.isSome_iff_exists.mp hc
  obtain ⟨q, hp, hq⟩ := heapContext_eq_some_iff.mp hc
  rw [footprint_of_get hp] at hx
  simp only [List.mem_cons, List.not_mem_nil, or_false] at hx
  rcases hx with rfl | rfl
  · rw [hp]
    rfl
  · rw [hq]
    rfl

/-- Where the cells of a context are the same, so is the context. -/
theorem heapContext_congr (hc : (heapContext h p).isSome)
    (hsame : ∀ x ∈ footprint h p, h'.get x = h.get x) :
    heapContext h' p = heapContext h p ∧ footprint h' p = footprint h p := by
  obtain ⟨c, hc⟩ := Option.isSome_iff_exists.mp hc
  obtain ⟨q, hp, hq⟩ := heapContext_eq_some_iff.mp hc
  rw [footprint_of_get hp] at hsame ⊢
  have hp' : h'.get p = some (.context (some q) c.contextFlags) := by
    rw [hsame p (by simp), hp]
  have hq' : h'.get q = some (.record c.context) := by
    rw [hsame q (by simp), hq]
  exact ⟨hc ▸ heapContext_eq_some_iff.mpr ⟨q, hp', hq'⟩, footprint_of_get hp'⟩

/-- Owned contexts are still owned where their cells are the same. -/
theorem Owned.congr {ps : List ℕ} (howned : Owned ps h)
    (hsame : ∀ p ∈ ps, ∀ x ∈ footprint h p, h'.get x = h.get x) :
    Owned ps h' ∧
      ∀ p ∈ ps, heapContext h' p = heapContext h p ∧ footprint h' p = footprint h p := by
  have heach : ∀ p ∈ ps, heapContext h' p = heapContext h p ∧ footprint h' p = footprint h p :=
    fun p hp => heapContext_congr (howned.whole p hp) (hsame p hp)
  refine ⟨⟨?_, fun p hp => ?_⟩, heach⟩
  · have hfootprints : ps.flatMap (footprint h') = ps.flatMap (footprint h) :=
      List.flatMap_congr fun p hp => (heach p hp).2
    rw [hfootprints]
    exact howned.nodup
  · rw [(heach p hp).1]
    exact howned.whole p hp

theorem Owned.keeps {ps : List ℕ} (howned : Owned ps h) (hkeeps : Keeps h h') :
    Owned ps h' ∧ ∀ p ∈ ps, heapContext h' p = heapContext h p ∧ footprint h' p = footprint h p :=
  howned.congr fun p hp _ hx => hkeeps _ (isSome_of_mem_footprint (howned.whole p hp) hx)

/-- A context is filled: it has a new record, and the other cells are as before. -/
structure Fills (h : CellHeap MinidumpCell) (p : ℕ) (c : MinidumpContext)
    (h' : CellHeap MinidumpCell) (q : ℕ) : Prop where
  get_context : h'.get p = some (.context (some q) c.contextFlags)
  get_record : h'.get q = some (.record c.context)
  new : h.get q = none
  other : ∀ x, x ≠ p → x ≠ q → h'.get x = h.get x
  live : h'.live = h.live + 1

/-- What `MinidumpContext::Read` does on the heap for what it does without. A context that it
refuses keeps the flags 0. -/
inductive ReadsAs (h : CellHeap MinidumpCell) (p : ℕ) :
    Option (Option MinidumpContext × InputStream) →
      Option (Bool × InputStream × CellHeap MinidumpCell) → Prop
  | crash : ReadsAs h p none none
  | refused {s : InputStream} {h' : CellHeap MinidumpCell} {record : Option ℕ}
      (hget : h'.get p = some (.context record 0))
      (hother : ∀ x, x ≠ p → (h.get x).isSome → h'.get x = h.get x) :
      ReadsAs h p (some (none, s)) (some (false, s, h'))
  | accepted {s : InputStream} {c : MinidumpContext} {h' : CellHeap MinidumpCell} {q : ℕ}
      (hfills : Fills h p c h' q) : ReadsAs h p (some (some c, s)) (some (true, s, h'))

/-- A record is allocated and the context is made to point to it. -/
theorem fills_alloc (hp : h.get p = some (.context none 0)) (c : MinidumpContext) :
    Fills h p c ((h.alloc (.record c.context)).2.set p
      (.context (some (h.alloc (.record c.context)).1) c.contextFlags))
      (h.alloc (.record c.context)).1 := by
  have hne : p ≠ (h.alloc (.record c.context)).1 := by
    intro heq
    rw [heq, CellHeap.get_alloc_fst] at hp
    cases hp
  have hpAlloc : (h.alloc (.record c.context)).2.get p = some (.context none 0) := by
    rw [CellHeap.get_alloc_of_ne hne, hp]
  refine ⟨CellHeap.get_set_self hpAlloc, ?_, CellHeap.get_alloc_fst _ _, ?_, ?_⟩
  · rw [CellHeap.get_set_of_ne hne.symm, CellHeap.get_alloc_self]
  · intro x hx hxq
    rw [CellHeap.get_set_of_ne hx, CellHeap.get_alloc_of_ne hxq]
  · rw [CellHeap.live_set hpAlloc, CellHeap.live_alloc]

/-- A filled context can be filled anew. -/
theorem Fills.refill {c' : MinidumpContext} (hp : (h.get p).isSome) (hfills : Fills h p c h' q) :
    Fills h p c' ((h'.set q (.record c'.context)).set p (.context (some q) c'.contextFlags)) q := by
  have hne : p ≠ q := by
    intro heq
    rw [heq, hfills.new] at hp
    cases hp
  have hpSet : (h'.set q (.record c'.context)).get p =
      some (.context (some q) c.contextFlags) := by
    rw [CellHeap.get_set_of_ne hne, hfills.get_context]
  refine ⟨CellHeap.get_set_self hpSet, ?_, hfills.new, ?_, ?_⟩
  · rw [CellHeap.get_set_of_ne hne.symm, CellHeap.get_set_self hfills.get_record]
  · intro x hx hxq
    rw [CellHeap.get_set_of_ne hx, CellHeap.get_set_of_ne hxq, hfills.other x hx hxq]
  · rw [CellHeap.live_set hpSet, CellHeap.live_set hfills.get_record, hfills.live]

/-- If the bytes of the record are not all there, the context is refused with its record. -/
theorem Fills.refuse {r : ContextRecord} (hp : (h.get p).isSome) (hfills : Fills h p ⟨r, 0⟩ h' q)
    (r' : ContextRecord) {s : InputStream} :
    ReadsAs h p (some (none, s)) (some (false, s, h'.set q (.record r'))) := by
  have hne : p ≠ q := by
    intro heq
    rw [heq, hfills.new] at hp
    cases hp
  have hcontext := hfills.get_context
  rw [← CellHeap.get_set_of_ne (x := .record r') hne] at hcontext
  refine .refused hcontext fun x hx hlive => ?_
  have hxq : x ≠ q := by
    rintro rfl
    rw [hfills.new] at hlive
    cases hlive
  rw [CellHeap.get_set_of_ne hxq, hfills.other x hx hxq]

/-- `MinidumpContext::Read` on the heap does what it does without. -/
theorem readAt_simulates (hp : h.get p = some (.context none 0)) (loc : MDLocationDescriptor)
    (s : InputStream) :
    ReadsAs h p (MinidumpContext.read loc s) (MinidumpContext.readAt p loc s h) := by
  have hunchanged (s : InputStream) : ReadsAs h p (some (none, s)) (some (false, s, h)) :=
    .refused hp fun _ _ _ => rfl
  unfold MinidumpContext.read MinidumpContext.readAt
  rcases seekTo s loc.rva with ⟨_ | _, s⟩
  · exact hunchanged s
  by_cases hamd64 : loc.dataSize = 1232
  · simp only [hamd64, if_true]
    have hfills := fills_alloc hp ⟨.amd64 (.zero 1232), 0⟩
    rcases readBytes s 1232 with ⟨_ | _, got, s⟩
    · exact hfills.refuse (by rw [hp]; rfl) _
    · exact .accepted (hfills.refill (by rw [hp]; rfl))
  by_cases hppc64 : loc.dataSize = sizeofContextPPC64
  · simp only [if_neg hamd64, if_pos hppc64]
    exact hunchanged s
  by_cases hold : loc.dataSize = 796
  · simp only [if_neg hamd64, if_neg hppc64, if_pos hold]
    rcases readBytes s 8 with ⟨_ | _, flags, s⟩
    · exact hunchanged s
    by_cases hcpu : cpuType (LittleEndian.decode flags) ≠ mdContextARM64Old
    · simp only [if_pos hcpu]
      exact hunchanged s
    · simp only [if_neg hcpu]
      rcases readBytes s (796 - 8) with ⟨_ | _, got, s⟩
      · exact hunchanged s
      · exact .accepted (fills_alloc hp _)
  · simp only [if_neg hamd64, if_neg hppc64, if_neg hold]
    rcases readBytesToNull s 4 with _ | ⟨ok, s⟩
    · exact .crash
    · exact hunchanged s

/-- A new context that is refused is deleted again, and what was live is as before. -/
theorem ReadsAs.deleteContext {h₂ : CellHeap MinidumpCell} {record : Option ℕ}
    (hget : h₂.get (h.alloc (.context none 0)).1 = some (.context record 0))
    (hother : ∀ x, x ≠ (h.alloc (.context none 0)).1 →
      ((h.alloc (.context none 0)).2.get x).isSome →
        h₂.get x = (h.alloc (.context none 0)).2.get x) :
    ∃ h₃, deleteContext h₂ (h.alloc (.context none 0)).1 = some h₃ ∧ Keeps h h₃ := by
  set p := (h.alloc (.context none 0)).1
  obtain ⟨h₃, hfree, -, hothers, -⟩ :=
    @CellHeap.freeAll_of_nodup _ h₂ [p] (by simp) (by simp [hget])
  refine ⟨h₃, ?_, fun x hx => ?_⟩
  · have hflags : accessedMember 0 = none := rfl
    simp only [DwarfExpr.deleteContext, hget, hflags, hfree]
  · have hne : x ≠ p := by
      rintro rfl
      rw [CellHeap.get_alloc_fst] at hx
      cases hx
    have hsame := CellHeap.get_alloc_of_ne (h := h) (x := .context none 0) hne
    rw [hothers x (by simpa using hne), hother x hne (by rw [hsame]; exact hx), hsame]

/-- A new context that is accepted has a cell and a record that were not live, and what was
live is as before. -/
theorem Fills.new_context {h₂ : CellHeap MinidumpCell}
    (hfills : Fills (h.alloc (.context none 0)).2 (h.alloc (.context none 0)).1 c h₂ q) :
    heapContext h₂ (h.alloc (.context none 0)).1 = some c ∧ Keeps h h₂ ∧
      h₂.live = h.live + 2 ∧ h.get q = none ∧ (h.alloc (.context none 0)).1 ≠ q := by
  have hne : (h.alloc (.context none 0)).1 ≠ q := by
    rintro rfl
    have hnew := hfills.new
    rw [CellHeap.get_alloc_self] at hnew
    cases hnew
  have hq : h.get q = none := by
    rw [← CellHeap.get_alloc_of_ne hne.symm]
    exact hfills.new
  refine ⟨heapContext_eq_some_iff.mpr ⟨q, hfills.get_context, hfills.get_record⟩, ?_, ?_, hq, hne⟩
  · intro x hx
    have hxp : x ≠ (h.alloc (.context none 0)).1 := by
      rintro rfl
      rw [CellHeap.get_alloc_fst] at hx
      cases hx
    have hxq : x ≠ q := by
      rintro rfl
      rw [hq] at hx
      cases hx
    rw [hfills.other x hxp hxq, CellHeap.get_alloc_of_ne hxp]
  · rw [hfills.live, CellHeap.live_alloc]

/-- With a new context that is accepted one more context is owned. -/
theorem Owned.cons_new {ps : List ℕ} {h₂ : CellHeap MinidumpCell} (howned : Owned ps h)
    (hfills : Fills (h.alloc (.context none 0)).2 (h.alloc (.context none 0)).1 c h₂ q) :
    Owned ((h.alloc (.context none 0)).1 :: ps) h₂ := by
  obtain ⟨hview, hkeeps, -, hq, hne⟩ := hfills.new_context
  obtain ⟨howned₂, hsame⟩ := howned.keeps hkeeps
  have hnot {x : ℕ} (hx : h.get x = none) : x ∉ ps.flatMap (footprint h₂) := by
    intro hmem
    obtain ⟨p, hp, hxp⟩ := List.mem_flatMap.mp hmem
    rw [(hsame p hp).2] at hxp
    have hlive := isSome_of_mem_footprint (howned.whole p hp) hxp
    rw [hx] at hlive
    cases hlive
  refine ⟨?_, List.forall_mem_cons.mpr ⟨by rw [hview]; rfl, howned₂.whole⟩⟩
  rw [List.flatMap_cons, footprint_of_get hfills.get_context]
  simp only [List.cons_append, List.nil_append, List.nodup_cons, List.mem_cons, not_or]
  exact ⟨⟨hne, hnot (CellHeap.get_alloc_fst h _)⟩, hnot hq, howned₂.nodup⟩

/-- Some of the owned contexts are owned. -/
theorem Owned.sublist {ps qs : List ℕ} (howned : Owned ps h) (hqs : qs.Sublist ps) : Owned qs h :=
  ⟨howned.nodup.sublist (hqs.flatMap _), fun p hp => howned.whole p (hqs.subset hp)⟩

/-- The order of the pointers does not matter. -/
theorem Owned.perm {ps qs : List ℕ} (howned : Owned ps h) (hqs : qs.Perm ps) : Owned qs h :=
  ⟨(hqs.flatMap_right _).nodup_iff.mpr howned.nodup,
    fun p hp => howned.whole p (hqs.mem_iff.mp hp)⟩

/-- An entry of `contexts_` is one of its pointers. -/
theorem mem_pointersOf {contexts : ContextPointers} {id : ℕ}
    (hlookup : contexts.lookup id = some p) : p ∈ pointersOf contexts :=
  List.mem_map.mpr ⟨⟨id, p⟩, AList.mem_lookup_iff.mp hlookup, rfl⟩

/-- The contexts are the same if each pointer leads to the same context. -/
theorem contextsView_congr {contexts : ContextPointers}
    (hsame : ∀ p ∈ pointersOf contexts, heapContext h' p = heapContext h p) :
    contextsView contexts h' = contextsView contexts h := by
  funext id
  unfold contextsView
  cases hlookup : contexts.lookup id with
  | none => rfl
  | some p => exact hsame p (mem_pointersOf hlookup)

/-- `contexts_[id] = context` for a new context. -/
theorem contextsView_insert {contexts : ContextPointers} {h₂ : CellHeap MinidumpCell}
    (howned : Owned (pointersOf contexts) h)
    (hfills : Fills (h.alloc (.context none 0)).2 (h.alloc (.context none 0)).1 c h₂ q) (id : ℕ) :
    contextsView (contexts.insert id (h.alloc (.context none 0)).1) h₂ =
        assignContext (contextsView contexts h) id c ∧
      Owned (pointersOf (contexts.insert id (h.alloc (.context none 0)).1)) h₂ := by
  obtain ⟨hview, hkeeps, -⟩ := hfills.new_context
  have hsame := contextsView_congr fun p hp => ((howned.keeps hkeeps).2 p hp).1
  constructor
  · funext k
    by_cases hk : k = id
    · subst hk
      simp only [contextsView, AList.lookup_insert, Option.bind_some, hview, assignContext, if_true]
    · rw [assignContext, if_neg hk, ← hsame, contextsView, AList.lookup_insert_ne hk]
      rfl
  · have howned₂ := howned.cons_new hfills
    apply howned₂.sublist
    rw [pointersOf, AList.entries_insert, List.map_cons]
    exact ((List.kerase_sublist id contexts.entries).map _).cons_cons _

/-- `contexts_.insert` for a new context. -/
theorem contextsView_insertIfNew {contexts : ContextPointers} {h₂ : CellHeap MinidumpCell}
    (howned : Owned (pointersOf contexts) h)
    (hfills : Fills (h.alloc (.context none 0)).2 (h.alloc (.context none 0)).1 c h₂ q) (id : ℕ) :
    let contexts' := if id ∈ contexts then contexts
      else contexts.insert id (h.alloc (.context none 0)).1
    contextsView contexts' h₂ = insertContext (contextsView contexts h) id c ∧
      Owned (pointersOf contexts') h₂ := by
  obtain ⟨hview, hkeeps, -⟩ := hfills.new_context
  by_cases hid : id ∈ contexts
  · simp only [if_pos hid]
    obtain ⟨howned₂, hsame⟩ := howned.keeps hkeeps
    refine ⟨?_, howned₂⟩
    rw [contextsView_congr fun p hp => (hsame p hp).1]
    funext k
    by_cases hk : k = id
    · subst hk
      obtain ⟨p, hp⟩ := Option.isSome_iff_exists.mp (AList.lookup_isSome.mpr hid)
      obtain ⟨old, hold⟩ := Option.isSome_iff_exists.mp (howned.whole p (mem_pointersOf hp))
      simp only [contextsView, insertContext, hp, Option.bind_some, hold, if_true, Option.some_or]
    · rw [insertContext, if_neg hk]
  · simp only [if_neg hid]
    obtain ⟨hassign, howned₂⟩ := contextsView_insert howned hfills id
    refine ⟨?_, howned₂⟩
    rw [hassign]
    funext k
    have hnone : contextsView contexts h id = none := by
      rw [contextsView, AList.lookup_eq_none.mpr hid]
      rfl
    by_cases hk : k = id
    · subst hk
      simp only [assignContext, insertContext, if_true, hnone, Option.none_or]
    · rw [assignContext, insertContext, if_neg hk, if_neg hk]

/-- The loop over the threads does on the heap what it does without, and keeps the contexts
owned. If it succeeds, each thread has added a context and a record. Induction on the
threads. -/
theorem readContextsAt_simulates {threads : List MDRawThread} {contexts : ContextPointers}
    (howned : Owned (pointersOf contexts) h) (s : InputStream) :
    (readContextsAt threads contexts s h).map
        (fun r => (r.1, contextsView r.2.1 r.2.2.2, r.2.2.1)) =
        readContexts threads (contextsView contexts h) s ∧
      ∀ r ∈ readContextsAt threads contexts s h, Owned (pointersOf r.2.1) r.2.2.2 ∧
        (r.1 = true → r.2.2.2.live = h.live + 2 * threads.length) := by
  induction threads generalizing contexts s h with
  | nil =>
    refine ⟨rfl, fun r hr => ?_⟩
    obtain rfl := Option.some.inj hr
    exact ⟨howned, fun _ => rfl⟩
  | cons thread threads ih =>
    have hsimulates := readAt_simulates (CellHeap.get_alloc_self h (.context none 0))
      (MDRawThread.threadContext thread) s
    unfold readContexts readContextsAt
    generalize MinidumpContext.read (MDRawThread.threadContext thread) s = plain at hsimulates ⊢
    simp only
    generalize MinidumpContext.readAt _ (MDRawThread.threadContext thread) s _ = onHeap
      at hsimulates ⊢
    cases hsimulates with
    | crash => exact ⟨rfl, fun r hr => by cases hr⟩
    | refused hget hother =>
      obtain ⟨h₃, hdelete, hkeeps⟩ := ReadsAs.deleteContext hget hother
      obtain ⟨howned₃, hsame⟩ := howned.keeps hkeeps
      have hview := contextsView_congr fun p hp => (hsame p hp).1
      simp only [hdelete, Option.map_some]
      refine ⟨by rw [hview], fun r hr => ?_⟩
      obtain rfl := Option.some.inj hr
      exact ⟨howned₃, fun hok => by cases hok⟩
    | accepted hfills =>
      obtain ⟨hview, howned₂⟩ :=
        contextsView_insertIfNew howned hfills (MDRawThread.threadId thread)
      obtain ⟨-, -, hlive, -⟩ := hfills.new_context
      obtain ⟨hrest, hresults⟩ := ih howned₂ ‹InputStream›
      simp only [← hview]
      refine ⟨hrest, fun r hr => ?_⟩
      obtain ⟨howned', hcount⟩ := hresults r hr
      refine ⟨howned', fun hok => ?_⟩
      rw [hcount hok, hlive, List.length_cons]
      omega

end

namespace MinidumpOnHeap

variable {m : MinidumpOnHeap}

/-- The contexts in the `Minidump` are owned. -/
def OwnsContexts (m : MinidumpOnHeap) : Prop := Owned (pointersOf m.contexts) m.heap

/-- Reading the thread list does on the heap what it does without. -/
theorem readThreadListStream_simulates (howned : m.OwnsContexts) (directory : MDRawDirectory) :
    (m.readThreadListStream directory).map (fun r => (r.1, r.2.view)) =
        m.view.readThreadListStream directory ∧
      ∀ r ∈ m.readThreadListStream directory, r.2.OwnsContexts ∧
        (r.1 = true → r.2.heap.live = m.heap.live + 2 * r.2.rest.threads.length) := by
  have hthreads : m.view.threads = m.rest.threads := rfl
  have hstream : m.view.stream = m.rest.stream := rfl
  unfold readThreadListStream Minidump.readThreadListStream
  rw [hthreads, hstream]
  rcases readStream directory m.rest.threads 48 10000 m.rest.stream with ⟨_ | _, threads, s⟩
  · refine ⟨rfl, fun r hr => ?_⟩
    obtain rfl := Option.some.inj hr
    exact ⟨howned, fun hok => by cases hok⟩
  · obtain ⟨hview, hresults⟩ := @readContextsAt_simulates _ threads _ howned s
    have hcontexts : m.view.contexts = contextsView m.contexts m.heap := rfl
    simp only [hcontexts, ← hview, Option.map_map]
    refine ⟨rfl, fun r hr => ?_⟩
    obtain ⟨result, hresult, rfl⟩ := Option.map_eq_some_iff.mp hr
    exact hresults result hresult

/-- Reading the exception does on the heap what it does without. -/
theorem readExceptionStream_simulates (howned : m.OwnsContexts) (directory : MDRawDirectory) :
    (m.readExceptionStream directory).map (fun r => (r.1, r.2.view)) =
        m.view.readExceptionStream directory ∧
      ∀ r ∈ m.readExceptionStream directory, r.2.OwnsContexts ∧
        (r.1 = true → r.2.heap.live = m.heap.live + 2) := by
  have hexception : m.view.exception = m.rest.exception := rfl
  have hstream : m.view.stream = m.rest.stream := rfl
  unfold readExceptionStream Minidump.readExceptionStream
  rw [hexception, hstream]
  rcases readStreamSingle directory m.rest.exception m.rest.stream with ⟨_ | _, exception, s⟩
  · refine ⟨rfl, fun r hr => ?_⟩
    obtain rfl := Option.some.inj hr
    exact ⟨howned, fun hok => by cases hok⟩
  have hsimulates := readAt_simulates (CellHeap.get_alloc_self m.heap (.context none 0))
    (MDRawExceptionStream.threadContext exception) s
  simp only
  generalize MinidumpContext.read (MDRawExceptionStream.threadContext exception) s = plain
    at hsimulates ⊢
  generalize MinidumpContext.readAt _ (MDRawExceptionStream.threadContext exception) s _ = onHeap
    at hsimulates ⊢
  cases hsimulates with
  | crash => exact ⟨rfl, fun r hr => by cases hr⟩
  | refused hget hother =>
    obtain ⟨h₃, hdelete, hkeeps⟩ := ReadsAs.deleteContext hget hother
    obtain ⟨howned₃, hsame⟩ := howned.keeps hkeeps
    have hview := contextsView_congr fun p hp => (hsame p hp).1
    simp only [hdelete, Option.map_some, view, hview]
    refine ⟨trivial, fun r hr => ?_⟩
    obtain rfl := Option.some.inj hr
    exact ⟨howned₃, fun hok => by cases hok⟩
  | accepted hfills =>
    obtain ⟨hview, howned₂⟩ :=
      contextsView_insert howned hfills (MDRawExceptionStream.threadId exception)
    obtain ⟨-, -, hlive, -⟩ := hfills.new_context
    simp only [Option.map_some, view, hview]
    refine ⟨trivial, fun r hr => ?_⟩
    obtain rfl := Option.some.inj hr
    exact ⟨howned₂, fun _ => hlive⟩

/-- The cells that a successful parse adds: a context and a record for each thread in the
list, and for the exception. -/
def addedCells (directory : MDRawDirectory) (m : MinidumpOnHeap) : ℕ :=
  match directory.handledType with
  | some .threadList => 2 * m.rest.threads.length
  | some .exception => 2
  | _ => 0

/-- The parse of a directory entry does on the heap what it does without. -/
theorem parse_simulates (howned : m.OwnsContexts) (directory : MDRawDirectory) :
    (m.parse directory).map (fun r => (r.1, r.2.view)) = m.view.parse directory ∧
      ∀ r ∈ m.parse directory, r.2.OwnsContexts ∧
        (r.1 = true → r.2.heap.live = m.heap.live + r.2.addedCells directory) := by
  have hsame (rest : Minidump) (ok : Bool) : ∀ r ∈ some (ok, { m with rest := rest }),
      r.2.OwnsContexts ∧ (r.1 = true → r.2.heap.live = m.heap.live + 0) := by
    intro r hr
    obtain rfl := Option.some.inj hr
    exact ⟨howned, fun _ => rfl⟩
  unfold parse Minidump.parse addedCells
  cases directory.handledType with
  | none => exact ⟨rfl, hsame m.rest true⟩
  | some streamType =>
    cases streamType with
    | threadList => exact readThreadListStream_simulates howned directory
    | moduleList => exact ⟨rfl, hsame _ _⟩
    | memoryList => exact ⟨rfl, hsame _ _⟩
    | exception => exact readExceptionStream_simulates howned directory
    | systemInfo => exact ⟨rfl, hsame _ _⟩

/-- The loop over the directory does on the heap what it does without. Induction on the
directory. -/
theorem readDirectories_simulates {directories : List MDRawDirectory} (howned : m.OwnsContexts) :
    (readDirectories directories m).map view = Minidump.readDirectories directories m.view ∧
      ∀ m' ∈ readDirectories directories m, m'.OwnsContexts := by
  induction directories generalizing m with
  | nil =>
    refine ⟨rfl, fun m' hm' => ?_⟩
    obtain rfl := Option.some.inj hm'
    exact howned
  | cons directory rest ih =>
    obtain ⟨hview, hresults⟩ := parse_simulates howned directory
    unfold readDirectories Minidump.readDirectories
    rw [← hview]
    cases hparse : m.parse directory with
    | none => exact ⟨rfl, fun m' hm' => by cases hm'⟩
    | some result => exact ih (hresults result hparse).1

/-- Nothing is owned by a `Minidump` that has read nothing. -/
theorem ownsContexts_empty (rest : Minidump) : OwnsContexts ⟨rest, ∅, .empty⟩ :=
  ⟨List.nodup_nil, fun _ hp => by cases hp⟩

/-- Without pointers the view is the `Minidump`. -/
theorem view_empty {rest : Minidump} (hrest : rest.contexts = fun _ => none) :
    view ⟨rest, ∅, .empty⟩ = rest := by
  have hcontexts : contextsView ∅ (.empty : CellHeap MinidumpCell) = rest.contexts := by
    rw [hrest]
    funext id
    rw [contextsView, AList.lookup_empty]
    rfl
  rw [view, hcontexts]

/-- The header and the directory are read without contexts. -/
theorem contexts_readDirectoryList (m : Minidump) :
    m.readDirectoryList.2.contexts = m.contexts := by
  unfold Minidump.readDirectoryList
  rcases seekTo m.stream (m.header.word 12 4) with ⟨_ | _, s⟩
  · rfl
  simp only
  split
  · rfl
  · split <;> rfl

/-- `Minidump::Read` does on the heap what it does without. -/
theorem read_simulates (image : List UInt8) :
    (read image).map (fun r => (r.1, r.2.view)) = Minidump.read image ∧
      ∀ r ∈ read image, r.2.OwnsContexts := by
  have hheader : (Minidump.ofFile image).readHeader.2.contexts = fun _ => none := rfl
  have hlist := contexts_readDirectoryList (Minidump.ofFile image).readHeader.2
  rw [hheader] at hlist
  unfold read Minidump.read
  rcases hread : (Minidump.ofFile image).readHeader with ⟨_ | _, m⟩ <;> rw [hread] at hheader hlist
  · refine ⟨congrArg (fun m => some (false, m)) (view_empty hheader), fun r hr => ?_⟩
    obtain rfl := Option.some.inj hr
    exact ownsContexts_empty m
  simp only at hlist ⊢
  rcases hreadList : m.readDirectoryList with ⟨_ | _, m'⟩ <;> rw [hreadList] at hlist
  · refine ⟨congrArg (fun m => some (false, m)) (view_empty hlist), fun r hr => ?_⟩
    obtain rfl := Option.some.inj hr
    exact ownsContexts_empty m'
  · obtain ⟨hview, howned⟩ := @readDirectories_simulates _ m'.directories
      (ownsContexts_empty m')
    rw [view_empty hlist] at hview
    simp only [Bool.not_true, Bool.false_eq_true, if_false, Option.map_map, ← hview]
    refine ⟨rfl, fun r hr => ?_⟩
    obtain ⟨m'', hm'', rfl⟩ := Option.map_eq_some_iff.mp hr
    exact howned m'' hm''

end MinidumpOnHeap

/-- The flags name the record of the context, or no record. -/
def MinidumpContext.Deletable (c : MinidumpContext) : Prop :=
  ∀ member ∈ c.deletedMember, member = c.context.member

/-- The cells that `delete` frees: the record stays if the flags name none. -/
def MinidumpContext.deletedCells (c : MinidumpContext) : ℕ :=
  if c.deletedMember.isSome then 2 else 1

section

variable {h h' : CellHeap MinidumpCell} {p : ℕ} {c : MinidumpContext} {ps : List ℕ}

/-- A context is deleted unless its flags name the wrong record. -/
theorem deleteContext_of_deletable (hc : heapContext h p = some c) (hnodup : (footprint h p).Nodup)
    (hdeletable : c.Deletable) :
    ∃ h', deleteContext h p = some h' ∧ (∀ x, x ∉ footprint h p → h'.get x = h.get x) ∧
      h'.live + c.deletedCells = h.live := by
  obtain ⟨q, hp, hq⟩ := heapContext_eq_some_iff.mp hc
  rw [footprint_of_get hp] at hnodup ⊢
  have hne : p ≠ q := by simpa using hnodup
  unfold deleteContext MinidumpContext.deletedCells
  unfold MinidumpContext.Deletable MinidumpContext.deletedMember at *
  cases hmember : accessedMember c.contextFlags with
  | none =>
    obtain ⟨h', hfree, -, hother, hlive⟩ :=
      @CellHeap.freeAll_of_nodup _ h [p] (by simp) (by simp [hp])
    refine ⟨h', by simp only [hp, hmember, hfree], fun x hx => ?_, hlive⟩
    exact hother x fun hmem => hx (by simp [List.mem_singleton.mp hmem])
  | some member =>
    obtain ⟨h', hfree, -, hother, hlive⟩ := @CellHeap.freeAll_of_nodup _ h [q, p]
      (by simpa using hne.symm) (by simp [hp, hq])
    have hright : c.context.member = member := (hdeletable member hmember).symm
    refine ⟨h', by simp only [hp, hmember, hq, hright, if_true, hfree], fun x hx => ?_, hlive⟩
    exact hother x fun hmem => hx (by simpa [or_comm] using hmem)

/-- A context whose flags name the wrong record is not deleted. -/
theorem deleteContext_of_not_deletable (hc : heapContext h p = some c)
    (hdeletable : ¬c.Deletable) : deleteContext h p = none := by
  obtain ⟨q, hp, hq⟩ := heapContext_eq_some_iff.mp hc
  unfold MinidumpContext.Deletable MinidumpContext.deletedMember at hdeletable
  cases hmember : accessedMember c.contextFlags with
  | none =>
    rw [hmember] at hdeletable
    exact absurd (fun member hmem => by cases hmem) hdeletable
  | some member =>
    have hwrong : ¬c.context.member = member := by
      intro heq
      rw [hmember] at hdeletable
      refine hdeletable fun other hother => ?_
      rw [← Option.some.inj hother, heq]
    simp only [deleteContext, hp, hmember, hq, hwrong, if_false]

/-- Owned contexts are all deleted, each once, exactly if the flags of none of them name the
wrong record. Induction on the pointers. -/
theorem deleteContexts_of_owned (howned : Owned ps h) :
    ((MinidumpOnHeap.deleteContexts h ps).isSome ↔
        ∀ p ∈ ps, ∀ c ∈ heapContext h p, c.Deletable) ∧
      ∀ h' ∈ MinidumpOnHeap.deleteContexts h ps,
        h'.live + ((ps.filterMap (heapContext h)).map MinidumpContext.deletedCells).sum =
          h.live := by
  induction ps generalizing h with
  | nil =>
    refine ⟨by simp [MinidumpOnHeap.deleteContexts], fun h' hh' => ?_⟩
    obtain rfl := Option.some.inj hh'
    rfl
  | cons p ps ih =>
    obtain ⟨hwhole, hmore⟩ := List.forall_mem_cons.mp howned.whole
    obtain ⟨c, hc⟩ := Option.isSome_iff_exists.mp hwhole
    have hnodup := howned.nodup
    rw [List.flatMap_cons, List.nodup_append] at hnodup
    obtain ⟨hfirst, hrest, hapart⟩ := hnodup
    rw [MinidumpOnHeap.deleteContexts]
    by_cases hdeletable : c.Deletable
    · obtain ⟨h₁, hdelete, hother, hlive⟩ := deleteContext_of_deletable hc hfirst hdeletable
      obtain ⟨howned₁, hsame⟩ := @Owned.congr h h₁ ps ⟨hrest, hmore⟩ fun p' hp' x hx =>
        hother x fun hmem => hapart x hmem x (List.mem_flatMap.mpr ⟨p', hp', hx⟩) rfl
      obtain ⟨hiff, hcount⟩ := ih howned₁
      rw [hdelete, Option.bind_some, hiff, List.forall_mem_cons]
      constructor
      · have hmore₁ : (∀ p ∈ ps, ∀ c ∈ heapContext h₁ p, c.Deletable) ↔
            ∀ p ∈ ps, ∀ c ∈ heapContext h p, c.Deletable :=
          forall₂_congr fun p' hp' => by rw [(hsame p' hp').1]
        rw [hmore₁, hc]
        exact ⟨fun hps => ⟨fun c' hc' => Option.some.inj hc' ▸ hdeletable, hps⟩, And.right⟩
      · intro h' hh'
        have hsum := hcount h' hh'
        have hcontexts : ps.filterMap (heapContext h₁) = ps.filterMap (heapContext h) :=
          List.filterMap_congr fun p' hp' => (hsame p' hp').1
        rw [hcontexts] at hsum
        rw [List.filterMap_cons, hc, List.map_cons, List.sum_cons]
        omega
    · rw [deleteContext_of_not_deletable hc hdeletable, Option.bind_none, List.forall_mem_cons]
      refine ⟨⟨fun hsome => (by cases hsome), fun hall => ?_⟩, fun h' hh' => by cases hh'⟩
      exact absurd (hall.1 c hc) hdeletable

end

namespace MinidumpOnHeap

/-- Reading on the heap gives the contexts that reading without gives, and whatever the file
is, `~Minidump` deletes them in any order: it frees no address twice and follows no pointer
that is not live, and it is undefined only if the flags of a context name a record of another
type than the one it has. -/
theorem read_then_delete (image : List UInt8) :
    (read image).map (fun r => (r.1, r.2.view)) = Minidump.read image ∧
      ∀ r ∈ read image, ∀ order : List ℕ, order.Perm (pointersOf r.2.contexts) →
        ((deleteContexts r.2.heap order).isSome ↔
          ∀ id, ∀ c ∈ r.2.view.contexts id, c.Deletable) := by
  obtain ⟨hview, howned⟩ := read_simulates image
  refine ⟨hview, fun r hr order horder => ?_⟩
  have hordered : Owned order r.2.heap := (howned r hr).perm horder
  rw [(deleteContexts_of_owned hordered).1]
  constructor
  · intro hpointers id c hc
    obtain ⟨p, hp, hpc⟩ := Option.bind_eq_some_iff.mp hc
    exact hpointers p (horder.mem_iff.mpr (mem_pointersOf hp)) c hpc
  · intro hcontexts p hp c hc
    obtain ⟨⟨id, p'⟩, hentry, rfl⟩ := List.mem_map.mp (horder.mem_iff.mp hp)
    refine hcontexts id c ?_
    exact Option.bind_eq_some_iff.mpr ⟨p', AList.mem_lookup_iff.mpr hentry, hc⟩

end MinidumpOnHeap

end DwarfExpr
