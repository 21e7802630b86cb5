import Mathlib.Data.List.Dedup
import DwarfExpr.MinidumpHeap
import DwarfExpr.MinidumpRoundTrip

/-!
# Contexts that nothing leads to

`contexts_` has one pointer for each thread id, but a context is allocated for each thread and
one more for the exception. Where ids repeat, and so for every process whose crashed thread is
in the thread list, contexts are left over that `~Minidump` does not find.
-/

namespace DwarfExpr

namespace MinidumpOnHeap

/-- A parse that succeeds without the heap succeeds on it. -/
theorem exists_parse {m : MinidumpOnHeap} {directory : MDRawDirectory} {parsed : Minidump}
    (howned : m.OwnsContexts) (hparse : m.view.parse directory = some (true, parsed)) :
    ∃ m', m.parse directory = some (true, m') ∧ m'.view = parsed ∧ m'.OwnsContexts ∧
      m'.heap.live = m.heap.live + m'.addedCells directory := by
  obtain ⟨hview, hresults⟩ := parse_simulates howned directory
  rw [hparse] at hview
  obtain ⟨⟨ok, m'⟩, hm', hr⟩ := Option.map_eq_some_iff.mp hview
  obtain ⟨rfl, rfl⟩ := Prod.mk.inj hr
  obtain ⟨howned', hlive⟩ := hresults (true, m') hm'
  exact ⟨m', hm', rfl, howned', hlive rfl⟩

end MinidumpOnHeap

/-- The type of a directory entry. -/
theorem directoryEntry_streamType {streamType : ℕ} (htype : streamType < 256 ^ 4)
    (dataSize rva : ℕ) :
    MDRawDirectory.streamType (directoryEntry streamType dataSize rva) = streamType :=
  @RawObject.word_of_bytes _ _ [] _ _ _ _ (directoryEntry_bytes streamType dataSize rva) rfl htype

namespace SavedProcess

variable (p : SavedProcess)

/-- The file of a process is read on the heap: a context and a record for each thread, and for
the exception. -/
theorem exists_loadedOnHeap (hsmall : p.image.length < 2 ^ 32) :
    ∃ m, MinidumpOnHeap.read p.image = some (true, m) ∧ p.Loaded m.view ∧ m.OwnsContexts ∧
      m.heap.live = 2 * (p.threads.length + 1) := by
  obtain ⟨m₁, m₂, m₃, m₄, m, hthreads, hmodules, hregions, hexception, hsystemInfo, hlength,
    hloaded⟩ := p.exists_parses hsmall
  let n₀ : MinidumpOnHeap := ⟨p.beforeStreams, ∅, .empty⟩
  have hview : n₀.view = p.beforeStreams := MinidumpOnHeap.view_empty rfl
  have howned : n₀.OwnsContexts := MinidumpOnHeap.ownsContexts_empty _
  rw [← hview] at hthreads
  obtain ⟨n₁, hparse₁, rfl, howned₁, hlive₁⟩ := MinidumpOnHeap.exists_parse howned hthreads
  obtain ⟨n₂, hparse₂, rfl, howned₂, hlive₂⟩ := MinidumpOnHeap.exists_parse howned₁ hmodules
  obtain ⟨n₃, hparse₃, rfl, howned₃, hlive₃⟩ := MinidumpOnHeap.exists_parse howned₂ hregions
  obtain ⟨n₄, hparse₄, rfl, howned₄, hlive₄⟩ := MinidumpOnHeap.exists_parse howned₃ hexception
  obtain ⟨n, hparse₅, rfl, howned₅, hlive₅⟩ := MinidumpOnHeap.exists_parse howned₄ hsystemInfo
  have hlength' : n₁.rest.threads.length = p.threads.length := hlength
  refine ⟨n, ?_, hloaded, howned₅, ?_⟩
  · have hat := p.partsAt_image
    have hread : MinidumpOnHeap.read p.image =
        (MinidumpOnHeap.readDirectories p.directory n₀).map fun m => (true, m) := by
      simp only [MinidumpOnHeap.read, hat.readHeader_eq, hat.readDirectoryList_eq]
      rfl
    rw [hread]
    simp only [directory, MinidumpOnHeap.readDirectories, hparse₁, hparse₂, hparse₃, hparse₄,
      hparse₅, Option.map_some]
  · have hempty : n₀.heap.live = 0 := rfl
    simp only [MinidumpOnHeap.addedCells, MDRawDirectory.handledType,
      directoryEntry_streamType (show 3 < 256 ^ 4 by decide),
      directoryEntry_streamType (show 4 < 256 ^ 4 by decide),
      directoryEntry_streamType (show 5 < 256 ^ 4 by decide),
      directoryEntry_streamType (show 6 < 256 ^ 4 by decide),
      directoryEntry_streamType (show 7 < 256 ^ 4 by decide)] at hlive₁ hlive₂ hlive₃ hlive₄ hlive₅
    omega

/-- The ids under which contexts are stored: one for the exception, and one for each thread. -/
def contextIds : List (BitVec 32) := p.crashedThreadId :: p.threads.map SavedThread.threadId

/-- The flags of all contexts name AMD64. -/
structure NamesAmd64 : Prop where
  threads : ∀ t ∈ p.threads,
    cpuType (storedField t.context 0 ⟨48, 4⟩) = ContextMember.cpu .amd64
  crash : cpuType (storedField p.crashContext 0 ⟨48, 4⟩) = ContextMember.cpu .amd64

variable {p} {m : MinidumpOnHeap}

/-- A context is found for exactly the ids of the process. -/
theorem Loaded.isSome_contexts_iff {m : Minidump} (h : p.Loaded m) (id : ℕ) :
    (m.contexts id).isSome ↔ id ∈ p.contextIds.map BitVec.toNat := by
  rw [h.contexts, contextIds, List.map_cons, List.mem_cons]
  by_cases hid : id = p.crashedThreadId.toNat
  · rw [if_pos hid]
    simp only [Option.isSome_some, hid, true_or]
  · rw [if_neg hid, or_iff_right hid, threadContext, Option.isSome_map, List.find?_isSome]
    simp only [List.map_map, List.mem_map, Function.comp_apply, decide_eq_true_eq]

/-- Each of them is a context of AMD64. -/
theorem Loaded.deletedMember_eq {m : Minidump} (h : p.Loaded m) (htags : p.NamesAmd64) {id : ℕ}
    {c : MinidumpContext} (hc : c ∈ m.contexts id) :
    c.deletedMember = some .amd64 ∧ c.context.member = .amd64 := by
  have hsaved {bytes : List UInt8} (hlength : bytes.length = 1232)
      (hcpu : cpuType (storedField bytes 0 ⟨48, 4⟩) = ContextMember.cpu .amd64) :
      (savedContext bytes).deletedMember = some .amd64 ∧
        (savedContext bytes).context.member = .amd64 := by
    refine ⟨accessedMember_eq_some_iff.mpr ?_, rfl⟩
    rw [savedContext, amd64Context_contextFlags (by omega)]
    exact hcpu
  rw [h.contexts] at hc
  by_cases hid : id = p.crashedThreadId.toNat
  · rw [if_pos hid] at hc
    obtain rfl := Option.some.inj hc
    exact hsaved p.length_crashContext htags.crash
  · rw [if_neg hid] at hc
    obtain ⟨t, ht, rfl⟩ := Option.map_eq_some_iff.mp hc
    exact hsaved t.length_context (htags.threads t (List.mem_of_find?_eq_some ht))

/-- `contexts_` has one pointer for each different id. -/
theorem length_pointersOf (h : p.Loaded m.view) (howned : m.OwnsContexts) :
    (pointersOf m.contexts).length = p.contextIds.dedup.length := by
  have hmem (id : ℕ) : id ∈ m.contexts.keys ↔ id ∈ p.contextIds.dedup.map BitVec.toNat := by
    rw [← AList.mem_keys, ← AList.lookup_isSome]
    have hids : id ∈ p.contextIds.dedup.map BitVec.toNat ↔ id ∈ p.contextIds.map BitVec.toNat := by
      simp only [List.mem_map, List.mem_dedup]
    rw [hids, ← h.isSome_contexts_iff]
    have hview : m.view.contexts id = (m.contexts.lookup id).bind (heapContext m.heap) := rfl
    rw [hview]
    cases hlookup : m.contexts.lookup id with
    | none => simp
    | some q => simpa using howned.whole q (mem_pointersOf hlookup)
  have hperm : m.contexts.keys.Perm (p.contextIds.dedup.map BitVec.toNat) :=
    (List.perm_ext_iff_of_nodup m.contexts.keys_nodup
      ((List.nodup_dedup _).map fun _ _ => BitVec.eq_of_toNat_eq)).mpr hmem
  have hlength := hperm.length_eq
  rw [List.length_map] at hlength
  rw [← hlength, pointersOf, AList.keys, List.keys, List.length_map, List.length_map]

/-- What is left when a process has been read from its file and the `Minidump` has been taken
down: a context and its record for each id too many. Nothing is left exactly if the ids of the
threads and of the crashed thread are all different, so that the crashed thread is not in the
thread list. -/
theorem leaked_cells (p : SavedProcess) (hsmall : p.image.length < 2 ^ 32)
    (htags : p.NamesAmd64) :
    ∃ m, MinidumpOnHeap.read p.image = some (true, m) ∧
      ∀ order : List ℕ, order.Perm (pointersOf m.contexts) →
        ∃ h, MinidumpOnHeap.deleteContexts m.heap order = some h ∧
          h.live + 2 * p.contextIds.dedup.length = 2 * p.contextIds.length ∧
          (h.live = 0 ↔ p.contextIds.Nodup) := by
  obtain ⟨m, hread, hloaded, howned, hlive⟩ := p.exists_loadedOnHeap hsmall
  refine ⟨m, hread, fun order horder => ?_⟩
  have hordered : Owned order m.heap := Owned.perm howned horder
  obtain ⟨hdeleted, hcount⟩ := deleteContexts_of_owned hordered
  have hmember {q : ℕ} {c : MinidumpContext} (hq : q ∈ order) (hc : c ∈ heapContext m.heap q) :
      c.deletedMember = some .amd64 ∧ c.context.member = .amd64 := by
    obtain ⟨⟨id, q⟩, hentry, rfl⟩ := List.mem_map.mp (horder.mem_iff.mp hq)
    have hcontext : c ∈ m.view.contexts id :=
      Option.bind_eq_some_iff.mpr ⟨q, AList.mem_lookup_iff.mpr hentry, hc⟩
    exact hloaded.deletedMember_eq htags hcontext
  have hsome := hdeleted.mpr fun q hq c hc member hdelete => by
    obtain ⟨hnamed, hmember⟩ := hmember hq hc
    rw [hnamed] at hdelete
    rw [hmember, Option.some.inj hdelete]
  obtain ⟨h, hh⟩ := Option.isSome_iff_exists.mp hsome
  have hcells : ((order.filterMap (heapContext m.heap)).map MinidumpContext.deletedCells).sum =
      2 * order.length := by
    have htwo : ∀ n ∈ (order.filterMap (heapContext m.heap)).map MinidumpContext.deletedCells,
        n = 2 := by
      intro n hn
      obtain ⟨c, hc, rfl⟩ := List.mem_map.mp hn
      obtain ⟨q, hq, hqc⟩ := List.mem_filterMap.mp hc
      rw [MinidumpContext.deletedCells, (hmember hq hqc).1]
      rfl
    rw [List.sum_eq_card_nsmul _ 2 htwo, List.length_map,
      List.filterMap_length_eq_length.mpr hordered.whole, Nat.nsmul_eq_mul, Nat.mul_comm]
  have hsum := hcount h hh
  rw [hcells, horder.length_eq, length_pointersOf hloaded howned, hlive] at hsum
  have hids : p.contextIds.length = p.threads.length + 1 := by simp [contextIds]
  have hall : h.live + 2 * p.contextIds.dedup.length = 2 * p.contextIds.length := by omega
  refine ⟨h, hh, hall, ?_⟩
  have hnodup : p.contextIds.Nodup ↔ p.contextIds.dedup.length = p.contextIds.length := by
    rw [← List.dedup_eq_self]
    constructor
    · intro heq
      rw [heq]
    · exact (List.dedup_sublist _).eq_of_length
  rw [hnodup]
  omega

/-- The flags of such a record name AMD64. -/
theorem cpuType_amd64Record (rsp rbp : BitVec 64) :
    cpuType (storedField (amd64Record rsp rbp) 0 ⟨48, 4⟩) = ContextMember.cpu .amd64 := by
  have hslice : InputStream.slice (amd64Record rsp rbp) (0 + 48) 4 =
      LittleEndian.encode 4 0x0010001f := by
    rw [InputStream.slice, amd64Record, List.drop_left' (by simp),
      List.take_left' (LittleEndian.length_encode 4 _)]
  rw [storedField, hslice]
  decide

/-- The crashed thread is in the thread list, so one context and its record are left. -/
theorem leaked_cells_crashedProcess :
    ∃ m, MinidumpOnHeap.read crashedProcess.image = some (true, m) ∧
      ∃ h, MinidumpOnHeap.deleteContexts m.heap (pointersOf m.contexts) = some h ∧
        h.live = 2 := by
  have htags : crashedProcess.NamesAmd64 := by
    refine ⟨fun t ht => ?_, cpuType_amd64Record _ _⟩
    simp only [crashedProcess, List.mem_cons, List.not_mem_nil, or_false] at ht
    rcases ht with rfl | rfl <;> exact cpuType_amd64Record _ _
  obtain ⟨m, hread, hdelete⟩ := leaked_cells crashedProcess length_crashedProcess htags
  obtain ⟨h, hh, hcount, -⟩ := hdelete _ (List.Perm.refl _)
  have hlengths : crashedProcess.contextIds.length = 3 ∧
      crashedProcess.contextIds.dedup.length = 2 := by decide
  rw [hlengths.1, hlengths.2] at hcount
  exact ⟨m, hread, h, hh, by omega⟩

end SavedProcess

end DwarfExpr
