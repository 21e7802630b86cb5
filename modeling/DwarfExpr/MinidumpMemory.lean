import DwarfExpr.MinidumpRoundTrip

/-!
# The memory of a saved process

`GetMemory` on a minidump of a process answers like the saved memory: the first region that
has all bytes of the request gives them. No answer is changed by the requests before it,
because the descriptors of such a minidump never lead outside the file.
-/

namespace DwarfExpr

open AddressRange (wrapCheck)
open InputStream (slice openAt)
open Layout (Holds)

/-- The region ends within the address space and has all bytes of the request. -/
def SavedRegion.Answers (r : SavedRegion) (address size : BitVec 64) : Prop :=
  r.start.toNat + r.bytes.length < 2 ^ 64 ∧
    AddressRange.Covers r.start.toNat r.bytes.length address.toNat size.toNat

instance (r : SavedRegion) (address size : BitVec 64) : Decidable (r.Answers address size) :=
  inferInstanceAs (Decidable (_ ∧ _))

/-- What the region has for a request that it answers. -/
def SavedRegion.savedBytes (r : SavedRegion) (address size : BitVec 64) : List UInt8 :=
  slice r.bytes (address.toNat - r.start.toNat) size.toNat

/-- What the saved memory has for a request. -/
def SavedProcess.savedMemory (p : SavedProcess) (address size : BitVec 64) : Option (List UInt8) :=
  (p.regions.find? fun r => r.Answers address size).map fun r => r.savedBytes address size

/-- One `GetMemory` after the other. -/
def Minidump.getMemories (m : Minidump) : List (BitVec 64 × BitVec 64) →
    List (Option (List UInt8)) × Minidump
  | [] => ([], m)
  | (address, size) :: requests =>
    let (buffer, m) := m.getMemory address size
    let (buffers, m) := m.getMemories requests
    (buffer :: buffers, m)

/-- The fields of the descriptor of a region. -/
theorem SavedRegion.descriptor_fields {r : SavedRegion} {rva : ℕ} {d : MDMemoryDescriptor}
    (hd : d.bytes = r.descriptor rva) (hlength : r.bytes.length < 256 ^ 4)
    (hrva : rva < 256 ^ 4) :
    d.startOfMemoryRange = r.start.toNat ∧
      MDMemoryDescriptor.memory d = ⟨r.bytes.length, rva⟩ := by
  have hbytes : d.bytes = LittleEndian.encode 8 r.start.toNat ++
      (LittleEndian.encode 4 r.bytes.length ++ (LittleEndian.encode 4 rva ++ [])) := by
    rw [hd, SavedRegion.descriptor, MDLocationDescriptor.bytes, List.append_nil]
  have hstart := @RawObject.word_of_bytes _ d [] _ 0 8 r.start.toNat hbytes rfl (by
    have := r.start.isLt
    omega)
  have hsize := @RawObject.word_of_bytes _ d _ _ 8 4 r.bytes.length hbytes
    (LittleEndian.length_encode 8 _) hlength
  rw [← List.append_assoc] at hbytes
  have hrvaAt := @RawObject.word_of_bytes _ d _ _ 12 4 rva hbytes (by simp) hrva
  refine ⟨hstart, ?_⟩
  simp only [MDMemoryDescriptor.memory, RawObject.location, hsize, hrvaAt]

/-- The descriptor of a region gives an offset exactly for the requests that the region
answers. -/
theorem SavedRegion.offsetOf_descriptor {r : SavedRegion} {rva : ℕ} {d : MDMemoryDescriptor}
    (hd : d.bytes = r.descriptor rva) (hlength : r.bytes.length < 256 ^ 4)
    (hrva : rva < 256 ^ 4) {address size : BitVec 64}
    (hend : address.toNat + size.toNat < 2 ^ 64) :
    MDMemoryDescriptor.offsetOf d address size =
      if r.Answers address size then some ((rva + (address.toNat - r.start.toNat) : ℕ) : ℤ)
      else none := by
  obtain ⟨hstart, hmemory⟩ := SavedRegion.descriptor_fields hd hlength hrva
  have hcheck : wrapCheck (.ofNat 64 r.start.toNat) (.ofNat 64 r.bytes.length) address size = true ↔
      r.Answers address size := by
    rw [AddressRange.wrapCheck_iff, SavedRegion.Answers, AddressRange.Overruns]
    simp only [BitVec.toNat_ofNat]
    rw [Nat.mod_eq_of_lt r.start.isLt, Nat.mod_eq_of_lt (by omega)]
    refine and_congr_right fun _ => or_iff_left ?_
    omega
  by_cases hanswers : r.Answers address size
  · rw [if_pos hanswers]
    have hsome : (MDMemoryDescriptor.offsetOf d address size).isSome = true := by
      unfold MDMemoryDescriptor.offsetOf
      rw [Option.isSome_ite, hstart, hmemory]
      exact hcheck.mpr hanswers
    obtain ⟨off, hoff⟩ := Option.isSome_iff_exists.mp hsome
    have hvalue := (MDMemoryDescriptor.offsetOf_eq_some hoff).2
    rw [hoff, hvalue, hstart, hmemory]
  · rw [if_neg hanswers]
    unfold MDMemoryDescriptor.offsetOf
    rw [hstart, hmemory]
    apply if_neg
    exact fun h => hanswers (hcheck.mp h)

/-- The first region that answers is the first descriptor that gives an offset. Induction on
the regions. -/
theorem findSome?_offsetOf {saved : List (SavedRegion × ℕ)} {descriptors : List MDMemoryDescriptor}
    (hdescriptors : descriptors.map RawObject.bytes = saved.map fun r => r.1.descriptor r.2)
    (hplaces : ∀ r ∈ saved, r.2 < 256 ^ 4 ∧ r.1.bytes.length < 256 ^ 4)
    {address size : BitVec 64} (hend : address.toNat + size.toNat < 2 ^ 64) :
    (descriptors.findSome? fun d => MDMemoryDescriptor.offsetOf d address size) =
      (saved.find? fun r => r.1.Answers address size).map
        fun r => ((r.2 + (address.toNat - r.1.start.toNat) : ℕ) : ℤ) := by
  induction saved generalizing descriptors with
  | nil =>
    obtain rfl : descriptors = [] := by simpa using hdescriptors
    rfl
  | cons r saved ih =>
    obtain ⟨d, descriptors, rfl⟩ := List.exists_cons_of_ne_nil (l := descriptors) (by
      rintro rfl
      cases hdescriptors)
    rw [List.map_cons, List.map_cons, List.cons.injEq] at hdescriptors
    obtain ⟨⟨hrva, hlength⟩, hmore⟩ := List.forall_mem_cons.mp hplaces
    rw [List.findSome?_cons, List.find?_cons,
      SavedRegion.offsetOf_descriptor hdescriptors.1 hlength hrva hend]
    by_cases hanswers : r.1.Answers address size
    · simp only [hanswers, if_true, decide_true, Option.map_some]
    · simp only [hanswers, if_false, decide_false, ih hdescriptors.2 hmore]

/-- If what the first descriptor points to lies inside the file, it is the answer, and the
stream can still be used. Induction on the descriptors. -/
theorem scanMemories_of_inside {address size : BitVec 64} {ranges : List MDMemoryDescriptor}
    {s : InputStream} (hs : s.failbit = false) {first : Option ℕ}
    (hfirst : (ranges.findSome? fun d => MDMemoryDescriptor.offsetOf d address size) =
      first.map Int.ofNat)
    (hinside : ∀ off ∈ first, off + size.toNat ≤ s.image.length) :
    ∃ s', scanMemories address size ranges s =
        (first.map fun off => slice s.image off size.toNat, s') ∧
      s'.failbit = false ∧ s'.image = s.image := by
  induction ranges with
  | nil =>
    obtain rfl : first = none := by simpa using hfirst.symm
    exact ⟨s, rfl, hs, rfl⟩
  | cons d rest ih =>
    rw [List.findSome?_cons] at hfirst
    unfold scanMemories
    rcases hoff : MDMemoryDescriptor.offsetOf d address size with - | off
    · rw [hoff] at hfirst
      exact ih hfirst
    · rw [hoff] at hfirst
      obtain ⟨pos, rfl, rfl⟩ := Option.map_eq_some_iff.mp hfirst.symm
      have hread := @readBytes_of_le s.image pos size.toNat (hinside pos rfl)
      refine ⟨openAt s.image (pos + size.toNat), ?_, rfl, rfl⟩
      have hseek : seekTo s (Int.ofNat pos) = (true, openAt s.image pos) :=
        seekTo_of_unfailed hs pos
      simp only [hseek, hread, Option.map_some]

namespace SavedProcess

variable {p : SavedProcess} {m : Minidump}

/-- The regions lie within four gigabytes if the file does. -/
theorem placedRegions_lt (p : SavedProcess) (hsmall : p.image.length < 2 ^ 32) :
    ∀ r ∈ p.placedRegions, r.2 < 256 ^ 4 ∧ r.1.bytes.length < 256 ^ 4 := by
  intro r hr
  have hle := (p.partsAt_image.bytes.of_mem_placed hr).le
  omega

/-- Looking for a region does not depend on the places of the bytes. -/
theorem find?_placedRegions (p : SavedProcess) (address size : BitVec 64) :
    (p.placedRegions.find? fun r => r.1.Answers address size).map Prod.fst =
      p.regions.find? fun r => r.Answers address size := by
  have hregions : p.regions = p.placedRegions.map Prod.fst :=
    (Layout.map_fst_placed SavedRegion.bytes p.bytesRva p.regions).symm
  rw [hregions, List.find?_map]
  rfl

/-- A request that ends within the address space is answered from the saved memory, and what
has been loaded stays loaded. -/
theorem Loaded.getMemory (h : p.Loaded m) (hsmall : p.image.length < 2 ^ 32)
    {address size : BitVec 64} (hend : address.toNat + size.toNat < 2 ^ 64) :
    ∃ m', m.getMemory address size = (p.savedMemory address size, m') ∧ p.Loaded m' := by
  have hfirst := findSome?_offsetOf h.memories (p.placedRegions_lt hsmall) hend
  let places := (p.placedRegions.find? fun r => r.1.Answers address size).map
    fun r => r.2 + (address.toNat - r.1.start.toNat)
  have hheld {r : SavedRegion × ℕ}
      (hr : (p.placedRegions.find? fun r => r.1.Answers address size) = some r) :
      Holds p.image r.2 r.1.bytes ∧
        address.toNat - r.1.start.toNat + size.toNat ≤ r.1.bytes.length := by
    refine ⟨p.partsAt_image.bytes.of_mem_placed (List.mem_of_find?_eq_some hr), ?_⟩
    have hanswers : r.1.Answers address size := by simpa using List.find?_some hr
    obtain ⟨-, hstart, -, hlast⟩ := hanswers
    omega
  have hinside : ∀ off ∈ places, off + size.toNat ≤ m.stream.image.length := by
    intro off hoff
    obtain ⟨r, hr, rfl⟩ := Option.map_eq_some_iff.mp hoff
    obtain ⟨hbytes, hlast⟩ := hheld hr
    have hle := hbytes.le
    rw [h.image_eq]
    omega
  obtain ⟨s', hscan, hs', himage⟩ := @scanMemories_of_inside address size m.memories m.stream
    h.unfailed places (by rw [hfirst, Option.map_map]; rfl) hinside
  have hanswer : (places.map fun off => slice m.stream.image off size.toNat) =
      p.savedMemory address size := by
    rw [savedMemory, ← find?_placedRegions, Option.map_map, Option.map_map]
    apply Option.map_congr
    intro r hr
    obtain ⟨hbytes, hlast⟩ := hheld hr
    rw [h.image_eq]
    exact hbytes.slice_inside hlast
  refine ⟨{ m with stream := s' }, ?_, { h with
    unfailed := hs'
    image_eq := himage.trans h.image_eq }⟩
  simp only [Minidump.getMemory, hscan, hanswer]

/-- All requests of a run are answered from the saved memory. Induction on the requests. -/
theorem Loaded.getMemories (h : p.Loaded m) (hsmall : p.image.length < 2 ^ 32)
    {requests : List (BitVec 64 × BitVec 64)}
    (hends : ∀ q ∈ requests, q.1.toNat + q.2.toNat < 2 ^ 64) :
    (m.getMemories requests).1 = requests.map fun q => p.savedMemory q.1 q.2 := by
  induction requests generalizing m with
  | nil => rfl
  | cons q requests ih =>
    obtain ⟨hend, hmore⟩ := List.forall_mem_cons.mp hends
    obtain ⟨m', hget, hloaded⟩ := h.getMemory hsmall hend
    simp only [Minidump.getMemories, hget, List.map_cons, ih hloaded hmore]

/-- A minidump of a process answers any run of requests for memory like the saved memory. -/
theorem read_savedMemory (p : SavedProcess) (hsmall : p.image.length < 2 ^ 32)
    (requests : List (BitVec 64 × BitVec 64))
    (hends : ∀ q ∈ requests, q.1.toNat + q.2.toNat < 2 ^ 64) :
    ∃ m, Minidump.read p.image = some (true, m) ∧
      (m.getMemories requests).1 = requests.map fun q => p.savedMemory q.1 q.2 := by
  obtain ⟨m, hread, hloaded⟩ := p.exists_loaded hsmall
  exact ⟨m, hread, hloaded.getMemories hsmall hends⟩

/-- The bytes of both stacks are found, and none between the stacks. -/
theorem read_savedMemory_crashedProcess :
    ∃ m, Minidump.read crashedProcess.image = some (true, m) ∧
      (m.getMemories [(0x7001, 2), (0x7800, 1), (0x8000, 6)]).1 =
        [some [2, 3], none, some [7, 8, 9, 10, 11, 12]] :=
  read_savedMemory crashedProcess length_crashedProcess [(0x7001, 2), (0x7800, 1), (0x8000, 6)]
    (by simp)

end SavedProcess

end DwarfExpr
