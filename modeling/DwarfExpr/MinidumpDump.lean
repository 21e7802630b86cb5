import DwarfExpr.MinidumpMemory
import DwarfExpr.TextRoundTrip

/-!
# Dumps of minidump_dump

`minidump_dump` prints a minidump much like the text dumps that the convertor reads: the
process, the thread that crashed, and the other threads with their registers and stacks. It
prints no frames. The lists of modules and memories at the end are not modelled.
-/

namespace DwarfExpr

open NumberText (toHex)
open Words (IsLine splitLines)

/-- An `int` in decimal. -/
def decimal (n : ℤ) : List Char :=
  if n < 0 then '-' :: Nat.toDigits 10 n.natAbs else Nat.toDigits 10 n.natAbs

/-- `MDRawSystemInfo::processor_architecture`. -/
def MDRawSystemInfo.processorArchitecture (info : MDRawSystemInfo) : ℕ := info.word 0 2

/-- `MDRawSystemInfo::number_of_processors`. -/
def MDRawSystemInfo.numberOfProcessors (info : MDRawSystemInfo) : ℕ := info.word 6 1

/-- `MDRawSystemInfo::platform_id`. -/
def MDRawSystemInfo.platformId (info : MDRawSystemInfo) : ℕ := info.word 20 4

/-- The operating system in `dump_system_info`. -/
def operatingSystemText (platformId : ℕ) : List Char :=
  match platformId with
  | 0x8102 => "iOS".toList
  | 0x8203 => "Android".toList
  | _ => Nat.toDigits 10 platformId

/-- The CPU in `dump_system_info`. -/
def cpuText (processorArchitecture : ℕ) : List Char :=
  match processorArchitecture with
  | 0 => "x86".toList
  | 9 => "amd64".toList
  | 5 => "arm".toList
  | 12 | 0x8003 => "arm64".toList
  | _ => Nat.toDigits 10 processorArchitecture

/-- `dump_system_info`. -/
def dumpSystemInfo (info : MDRawSystemInfo) : List Char :=
  "Operating system: ".toList ++ operatingSystemText (MDRawSystemInfo.platformId info) ++ ['\n'] ++
    ("CPU: ".toList ++ cpuText (MDRawSystemInfo.processorArchitecture info) ++ ['\n'] ++
      ("     ".toList ++ Nat.toDigits 10 (MDRawSystemInfo.numberOfProcessors info) ++
        " CPUs\n\n".toList ++ "GPU: UNKNOWN\n\n".toList))

/-- `MDException::exception_code` of an exception stream. -/
def MDRawExceptionStream.exceptionCode (e : MDRawExceptionStream) : ℕ := e.word 8 4

/-- `MDException::exception_address` of an exception stream. -/
def MDRawExceptionStream.exceptionAddress (e : MDRawExceptionStream) : ℕ := e.word 24 8

/-- `dump_exception`. -/
def dumpException (e : MDRawExceptionStream) : List Char :=
  "Crash reason: ".toList ++ Nat.toDigits 10 (MDRawExceptionStream.exceptionCode e) ++ ['\n'] ++
    ("Crash address: ".toList ++ "0x".toList ++
      Nat.toDigits 16 (MDRawExceptionStream.exceptionAddress e) ++ "\n\n".toList)

/-- A register with its name. -/
def registerText (name : String) (value : ℕ) : List Char :=
  "     ".toList ++ (name.toList ++ (" = 0x".toList ++ toHex 16 value))

/-- The registers of an AMD64 record as `dump_context` prints them, row by row. -/
def amd64Rows : List (List (String × RecordField)) :=
  [[("rax", ⟨120, 8⟩), ("rdx", ⟨136, 8⟩)], [("rcx", ⟨128, 8⟩), ("rbx", ⟨144, 8⟩)],
    [("rsi", ⟨168, 8⟩), ("rdi", ⟨176, 8⟩)], [("rbp", ⟨160, 8⟩), ("rsp", ⟨152, 8⟩)],
    [("r8", ⟨184, 8⟩), ("r9", ⟨192, 8⟩)], [("r10", ⟨200, 8⟩), ("r11", ⟨208, 8⟩)],
    [("r12", ⟨216, 8⟩), ("r13", ⟨224, 8⟩)], [("r14", ⟨232, 8⟩), ("r15", ⟨240, 8⟩)],
    [("rip", ⟨248, 8⟩)]]

/-- The branch of `dump_context` for AMD64. -/
def amd64Text (context : ContextRecord) : List Char :=
  amd64Rows.flatMap fun row =>
    row.flatMap (fun r => registerText r.1 (context.field r.2)) ++ ['\n']

/-- `register_names` in `dump_context`. -/
def arm64Names : List String :=
  ["x0", "x1", "x2", "x3", "x4", "x5", "x6", "x7", "x8", "x9", "x10", "x11", "x12", "x13", "x14",
    "x15", "x16", "x17", "x18", "x19", "x20", "x21", "x22", "x23", "x24", "x25", "x26", "x27",
    "x28", "x29", "x30", "sp", "pc"]

/-- What `dump_context` prints behind an ARM64 register. -/
def behindRegister (i : ℕ) : List Char :=
  if i ≠ 0 ∧ (i + 1) % 2 = 0 then ['\n'] else "     ".toList

/-- The loop of `dump_context` over the ARM64 registers from an index on, and what follows. -/
def arm64Loop (context : ContextRecord) : ℕ → List String → List Char
  | _, [] => ['\n']
  | i, name :: names =>
    registerText name (context.field ⟨8 + 8 * i, 8⟩) ++
      (behindRegister i ++ arm64Loop context (i + 1) names)

/-- The CPU type of a context as an `int`. -/
def MinidumpContext.cpuTypeInt (c : MinidumpContext) : ℤ :=
  (BitVec.ofNat 32 (cpuType c.contextFlags)).toInt

/-- `dump_context`. -/
def MinidumpContext.dumpContext (c : MinidumpContext) : List Char :=
  match cpuType c.contextFlags with
  | 0x00010000 => []
  | 0x00100000 => amd64Text c.context
  | 0x40000000 => []
  | 0x00400000 | 0x80000000 => arm64Loop c.context 0 arm64Names
  | _ => "Error: unsupported cpu type: ".toList ++ (decimal c.cpuTypeInt ++ ['\n'])

/-- What each of the three getters prints. -/
def MinidumpContext.getterText (c : MinidumpContext) : List Char :=
  match accessedMember c.contextFlags with
  | some _ => []
  | none => "Error: unsupported cpu arch: ".toList ++ (decimal c.cpuTypeInt ++ ['\n'])

/-- The base in which `std::cout` prints numbers after the context: the registers of AMD64
leave it at 16. -/
def baseBehind (context : Option MinidumpContext) : ℕ :=
  match context with
  | some c => if cpuType c.contextFlags = 0x00100000 then 16 else 10
  | none => 10

/-- `sp` in `dump_thread`. -/
def spOf (context : Option MinidumpContext) : BitVec 64 :=
  .ofNat 64 ((context.bind MinidumpContext.getStackPointer).getD 0)

/-- `fp` in `dump_thread`. -/
def fpOf (context : Option MinidumpContext) : BitVec 64 :=
  .ofNat 64 ((context.bind MinidumpContext.getFramePointer).getD 0)

/-- One row of `hexdump`, for at most sixteen bytes. -/
def hexdumpRow (indent : List Char) (bytes : List UInt8) (off : BitVec 64) : List Char :=
  '\n' :: (indent ++ ' ' :: (toHex 16 off.toNat ++
    (bytes.flatMap (fun b => ' ' :: toHex 2 b.toNat) ++
      (List.replicate (3 * (16 - bytes.length)) ' ' ++ ' ' :: ' ' :: (bytes.map shownChar ++
        List.replicate (16 - bytes.length) ' ')))))

/-- `hexdump`. -/
def hexdump (indent : List Char) (buffer : List UInt8) (off : BitVec 64) : List Char :=
  if _h : buffer = [] then []
  else hexdumpRow indent (buffer.take 16) off ++ hexdump indent (buffer.drop 16) (off + 16)
termination_by buffer.length
decreasing_by
  have hpos := List.length_pos_of_ne_nil _h
  rw [List.length_drop]
  omega

/-- `dump_thread`. `GetMemory` is called for a stack of less than `0x10000` bytes. -/
def Minidump.dumpThread (m : Minidump) (thread : MDRawThread) (crashed : Bool) :
    List Char × Minidump :=
  let context := m.getContext thread.threadId
  let front := "Thread ".toList ++ (Nat.toDigits 10 thread.threadId ++
    ((if crashed then " (crashed)".toList else []) ++ '\n' ::
      ((context.elim [] fun c => c.dumpContext ++ (c.getterText ++ (c.getterText ++ c.getterText)))
        ++ ['\n'])))
  let sp := spOf context
  let fp := fpOf context
  if fp ≠ 0 ∧ sp ≠ 0 then
    let stackLen := fp - sp
    if 0 < stackLen ∧ stackLen < 0x10000 then
      let (buffer, m) := m.getMemory sp stackLen
      (front ++ ("     Stack contents: (".toList ++
        (Nat.toDigits (baseBehind context) stackLen.toNat ++ (')' ::
          ((buffer.elim [] fun bytes => hexdump "     ".toList bytes sp) ++ "\n\n".toList)))), m)
    else (front ++ "\n\n".toList, m)
  else (front ++ ['\n'], m)

/-- `crash_thread_id` in `main`: zero if the thread that crashed is not in the list. -/
def Minidump.crashThreadId (m : Minidump) : ℕ := m.getCrashThread.elim 0 MDRawThread.threadId

/-- The threads that `main` prints, and whether as crashed. -/
def Minidump.shownThreads (m : Minidump) : List (MDRawThread × Bool) :=
  m.getCrashThread.toList.map (·, true) ++
    (m.threads.filter (·.threadId ≠ m.crashThreadId)).map (·, false)

/-- Print threads one after the other. -/
def dumpEach : List (MDRawThread × Bool) → Minidump → List Char × Minidump
  | [], m => ([], m)
  | (thread, crashed) :: rest, m =>
    let (text, m) := m.dumpThread thread crashed
    let (more, m) := dumpEach rest m
    (text ++ more, m)

/-- What `main` prints in front of the threads. -/
def Minidump.dumpHead (m : Minidump) : List Char :=
  dumpSystemInfo m.systemInfo ++ dumpException m.exception

/-- What `main` prints up to the threads for the bytes of a file, behind the errors that `Read`
prints; `none` if `Read` crashes. -/
def minidumpDump (image : List UInt8) : Option (List Char) :=
  (Minidump.read image).map fun
    | (true, m) => m.dumpHead ++ (dumpEach m.shownThreads m).1
    | (false, _) => "Error: can not parse the minidump.\n".toList

/-- The stack of the context is printed, if its memory is found. -/
def ShowsStack (context : Option MinidumpContext) : Prop :=
  (fpOf context ≠ 0 ∧ spOf context ≠ 0) ∧
    0 < fpOf context - spOf context ∧ fpOf context - spOf context < 0x10000

instance (context : Option MinidumpContext) : Decidable (ShowsStack context) :=
  inferInstanceAs (Decidable (_ ∧ _))

/-- The registers of a thread, and what the getters print. -/
def registersText (context : Option MinidumpContext) : List Char :=
  context.elim [] fun c => c.dumpContext ++ (c.getterText ++ (c.getterText ++ c.getterText))

/-- The line in front of a stack, with its size. -/
def sizedContentsLine (context : Option MinidumpContext) : TextLine :=
  List.replicate 5 ' ' ++ ("Stack contents: (".toList ++
    (Nat.toDigits (baseBehind context) (fpOf context - spOf context).toNat ++ ")\n".toList))

/-- The lines of a stack of which the memory has been found, or has not. -/
def stackLines (context : Option MinidumpContext) (buffer : Option (List UInt8)) : List TextLine :=
  sizedContentsLine context :: buffer.elim [] (stackRows 5 (spOf context))

/-- A thread as it is printed: its header, its registers and its stack. -/
def threadText (id : ℕ) (crashed : Bool) (context : Option MinidumpContext)
    (buffer : Option (List UInt8)) : List Char :=
  threadLine id crashed ++ (registersText context ++ '\n' ::
    ((if ShowsStack context then (stackLines context buffer).flatten
      else if fpOf context ≠ 0 ∧ spOf context ≠ 0 then ['\n'] else []) ++ ['\n']))

/-- A row ends where the next one begins a line. -/
theorem hexdumpRow_newline (indent : ℕ) (bytes : List UInt8) (off : BitVec 64) :
    hexdumpRow (List.replicate indent ' ') bytes off ++ ['\n'] =
      '\n' :: stackRow indent off bytes := by
  simp only [hexdumpRow, stackRow, List.append_assoc, List.cons_append]

/-- The rows that `hexdump` prints behind a line are those of a stack dump. The induction
follows the rows. -/
theorem hexdump_newline (indent : ℕ) (bytes : List UInt8) (off : BitVec 64) :
    hexdump (List.replicate indent ' ') bytes off ++ ['\n'] =
      '\n' :: (stackRows indent off bytes).flatten := by
  induction bytes, off using hexdump.induct with
  | case1 off =>
    rw [hexdump, stackRows, dif_pos rfl, dif_pos rfl]
    rfl
  | case2 bytes off hbytes ih =>
    rw [hexdump, dif_neg hbytes, stackRows_of_ne_nil indent off hbytes, List.append_assoc, ih,
      List.flatten_cons, ← List.cons_append, ← hexdumpRow_newline, List.append_assoc]
    rfl

/-- The header of a thread as `dump_thread` prints it. -/
theorem threadLine_append (id : ℕ) (crashed : Bool) (text : List Char) :
    "Thread ".toList ++ (Nat.toDigits 10 id ++
      ((if crashed then " (crashed)".toList else []) ++ '\n' :: text)) =
        threadLine id crashed ++ text := by
  cases crashed <;> simp [threadLine]

/-- A stack as `dump_thread` prints it. -/
theorem stackLines_flatten (context : Option MinidumpContext) (buffer : Option (List UInt8)) :
    "     Stack contents: (".toList ++
      (Nat.toDigits (baseBehind context) (fpOf context - spOf context).toNat ++ (')' ::
        ((buffer.elim [] fun bytes => hexdump "     ".toList bytes (spOf context)) ++
          "\n\n".toList))) = (stackLines context buffer).flatten ++ ['\n'] := by
  have hindent : "     ".toList = List.replicate 5 ' ' := by decide
  have hrows : (buffer.elim [] fun bytes => hexdump "     ".toList bytes (spOf context)) ++ ['\n'] =
      '\n' :: (buffer.elim [] (stackRows 5 (spOf context))).flatten := by
    rw [hindent]
    cases buffer with
    | none => rfl
    | some bytes => exact hexdump_newline 5 bytes (spOf context)
  have hfront : "     Stack contents: (".toList =
      List.replicate 5 ' ' ++ "Stack contents: (".toList := by decide
  have hend : "\n\n".toList = ['\n'] ++ ['\n'] := by decide
  have hclose : ")\n".toList = [')', '\n'] := by decide
  rw [hfront, hend, ← List.append_assoc _ ['\n'] ['\n'], hrows]
  simp only [stackLines, sizedContentsLine, hclose, List.flatten_cons, List.append_assoc,
    List.cons_append, List.nil_append]

/-- The memory of the stack that `dump_thread` prints. -/
def Minidump.stackBuffer (m : Minidump) (context : Option MinidumpContext) :
    Option (List UInt8) × Minidump :=
  if ShowsStack context then m.getMemory (spOf context) (fpOf context - spOf context)
  else (none, m)

/-- What `dump_thread` prints, and what it asks of the memory. -/
theorem Minidump.dumpThread_eq (m : Minidump) (thread : MDRawThread) (crashed : Bool) :
    m.dumpThread thread crashed =
      (threadText thread.threadId crashed (m.getContext thread.threadId)
        (m.stackBuffer (m.getContext thread.threadId)).1,
        (m.stackBuffer (m.getContext thread.threadId)).2) := by
  generalize hcontext : m.getContext thread.threadId = context
  have hend : "\n\n".toList = ['\n', '\n'] := by decide
  simp only [dumpThread, hcontext, List.append_assoc, List.cons_append, List.nil_append,
    threadLine_append, threadText, registersText, stackBuffer]
  by_cases hpointers : fpOf context ≠ 0 ∧ spOf context ≠ 0
  · by_cases hwindow : 0 < fpOf context - spOf context ∧ fpOf context - spOf context < 0x10000
    · have hshows : ShowsStack context := ⟨hpointers, hwindow⟩
      simp only [if_pos hpointers, if_pos hwindow, if_pos hshows, stackLines_flatten]
    · have hshows : ¬ShowsStack context := fun h => hwindow h.2
      simp only [if_pos hpointers, if_neg hwindow, if_neg hshows, hend, List.cons_append,
        List.nil_append]
  · have hshows : ¬ShowsStack context := fun h => hpointers h.1
    simp only [if_neg hpointers, if_neg hshows, List.nil_append]

/-- The first entry with a key, as its key. -/
theorem find?_map_key {α : Type} (key : α → ℕ) (k : ℕ) (xs : List α) :
    (xs.find? fun x => key x = k).map key = if k ∈ xs.map key then some k else none := by
  induction xs with
  | nil => rfl
  | cons x xs ih =>
    by_cases hx : key x = k
    · simp [hx]
    · simp [hx, ih, Ne.symm hx]

/-- Every thread of the list is shown once if and only if the id of the thread that crashed
is that of exactly one thread, or of none while no thread has the id 0. -/
theorem Minidump.shownThreads_perm_iff (m : Minidump) :
    (m.shownThreads.map Prod.fst).Perm m.threads ↔
      (m.threads.map MDRawThread.threadId).count (MDRawExceptionStream.threadId m.exception) = 1 ∨
        MDRawExceptionStream.threadId m.exception ∉ m.threads.map MDRawThread.threadId ∧
          0 ∉ m.threads.map MDRawThread.threadId := by
  have hshown : m.shownThreads.map Prod.fst = m.getCrashThread.toList ++
      m.threads.filter (MDRawThread.threadId · ≠ m.crashThreadId) := by
    rw [shownThreads, List.map_append, List.map_map, List.map_map]
    simp [Function.comp_def]
  have hcount (k : ℕ) : (m.threads.map MDRawThread.threadId).count k =
      (m.threads.filter (MDRawThread.threadId · = k)).length := by
    rw [List.count_eq_countP, List.countP_map, List.countP_eq_length_filter]
    rfl
  have hsplit (k : ℕ) : (m.threads.filter (MDRawThread.threadId · = k) ++
      m.threads.filter (MDRawThread.threadId · ≠ k)).Perm m.threads := by
    have hperm := List.filter_append_perm (fun t => decide (MDRawThread.threadId t = k)) m.threads
    simpa using hperm
  have hlengths (k : ℕ) := (hsplit k).length_eq
  rw [hshown]
  cases hcrash : m.getCrashThread with
  | none =>
    have hzero : m.crashThreadId = 0 := by rw [crashThreadId, hcrash, Option.elim_none]
    have hnone : MDRawExceptionStream.threadId m.exception ∉
        m.threads.map MDRawThread.threadId := by
      rintro hmem
      obtain ⟨t, ht, hid⟩ := List.mem_map.mp hmem
      have hfind := List.find?_eq_none.mp hcrash t ht
      simp [hid] at hfind
    have hsum := hlengths 0
    rw [List.length_append] at hsum
    rw [hzero, Option.toList_none, List.nil_append]
    constructor
    · intro hperm
      have hsame := hperm.length_eq
      refine Or.inr ⟨hnone, ?_⟩
      rw [← List.count_eq_zero, hcount]
      omega
    · rintro (hone | ⟨-, hempty⟩)
      · rw [List.count_eq_zero.mpr hnone] at hone
        cases hone
      · rw [← List.count_eq_zero, hcount] at hempty
        have hsame := hsplit 0
        rwa [List.eq_nil_of_length_eq_zero hempty, List.nil_append] at hsame
  | some t =>
    have hid : MDRawThread.threadId t = MDRawExceptionStream.threadId m.exception := by
      simpa using List.find?_some hcrash
    have hthread : m.crashThreadId = MDRawExceptionStream.threadId m.exception := by
      rw [crashThreadId, hcrash, Option.elim_some, hid]
    have ht : t ∈ m.threads.filter
        (MDRawThread.threadId · = MDRawExceptionStream.threadId m.exception) :=
      List.mem_filter.mpr ⟨List.mem_of_find?_eq_some hcrash, by simpa using hid⟩
    have hmem : MDRawExceptionStream.threadId m.exception ∈ m.threads.map MDRawThread.threadId :=
      List.mem_map.mpr ⟨t, List.mem_of_find?_eq_some hcrash, hid⟩
    rw [hthread, hcount]
    simp only [hmem, not_true_eq_false, false_and, or_false, Option.toList_some]
    have hsum := hlengths (MDRawExceptionStream.threadId m.exception)
    rw [List.length_append] at hsum
    constructor
    · intro hperm
      have hsame := hperm.length_eq
      rw [List.length_append, List.length_singleton] at hsame
      omega
    · intro hone
      obtain ⟨t', ht'⟩ := List.length_eq_one_iff.mp hone
      rw [ht', List.mem_singleton] at ht
      have hsame := hsplit (MDRawExceptionStream.threadId m.exception)
      rwa [ht', ← ht] at hsame

namespace SavedProcess

/-- The context that is shown for a thread. -/
def shownContext (p : SavedProcess) (id : ℕ) : Option MinidumpContext :=
  if id = p.crashedThreadId.toNat then some (savedContext p.crashContext) else p.threadContext id

/-- The ids of the threads that are shown: the thread that crashed, if it is one of the
threads, and those with another id. If it is none of them, those with the id 0 are left out. -/
def shownIds (p : SavedProcess) : List (ℕ × Bool) :=
  let ids := p.threads.map (·.threadId.toNat)
  let crashed := p.crashedThreadId.toNat
  if crashed ∈ ids then (crashed, true) :: (ids.filter (· ≠ crashed)).map (·, false)
  else (ids.filter (· ≠ 0)).map (·, false)

/-- The saved bytes from the stack pointer up to the frame pointer. -/
def shownStack (p : SavedProcess) (id : ℕ) : Option (List UInt8) :=
  let context := p.shownContext id
  if ShowsStack context then p.savedMemory (spOf context) (fpOf context - spOf context) else none

/-- The dump of a process, up to its threads. -/
def dumpText (p : SavedProcess) : List Char :=
  dumpSystemInfo ⟨p.systemInfo, p.length_systemInfo⟩ ++
    dumpException ⟨p.exception, p.length_exception⟩ ++
      p.shownIds.flatMap fun (id, crashed) =>
        threadText id crashed (p.shownContext id) (p.shownStack id)

variable {p : SavedProcess} {m : Minidump}

/-- The ids of the records are those of the threads. Induction on the threads. -/
theorem map_threadId_records {saved : List (SavedThread × ℕ)} {records : List MDRawThread}
    (hrecords : records.map RawObject.bytes = saved.map fun t => t.1.record t.2)
    (hplaces : ∀ t ∈ saved, t.2 < 256 ^ 4) :
    records.map MDRawThread.threadId = saved.map (·.1.threadId.toNat) := by
  induction saved generalizing records with
  | nil =>
    obtain rfl : records = [] := by simpa using hrecords
    rfl
  | cons t saved ih =>
    obtain ⟨record, records, rfl, hrecord, hrest⟩ := List.map_eq_cons_iff.mp hrecords
    obtain ⟨hplace, hmore⟩ := List.forall_mem_cons.mp hplaces
    rw [List.map_cons, List.map_cons, ih hrest hmore,
      (SavedThread.record_fields hrecord hplace).1]

/-- The ids of the threads that have been loaded. -/
theorem Loaded.threadIds (h : p.Loaded m) (hsmall : p.image.length < 2 ^ 32) :
    m.threads.map MDRawThread.threadId = p.threads.map (·.threadId.toNat) := by
  have hthreads : p.threads = p.placedThreads.map Prod.fst :=
    (Layout.map_fst_placed SavedThread.context p.contextsRva p.threads).symm
  rw [map_threadId_records h.threads (p.placedThreads_lt hsmall), hthreads, List.map_map]
  rfl

/-- The threads that `main` prints. -/
theorem Loaded.shownThreads (h : p.Loaded m) (hsmall : p.image.length < 2 ^ 32) :
    (m.shownThreads.map fun t => (MDRawThread.threadId t.1, t.2)) = p.shownIds := by
  have hids := h.threadIds hsmall
  have hcrash : m.getCrashThread.map MDRawThread.threadId =
      if p.crashedThreadId.toNat ∈ p.threads.map (·.threadId.toNat) then
        some p.crashedThreadId.toNat else none := by
    rw [Minidump.getCrashThread, Minidump.getThread, h.threadId_exception hsmall, ← hids]
    exact find?_map_key MDRawThread.threadId _ m.threads
  have hid : m.crashThreadId = (m.getCrashThread.map MDRawThread.threadId).getD 0 := by
    rw [Minidump.crashThreadId]
    cases m.getCrashThread <;> rfl
  have hfirst : (m.getCrashThread.toList.map fun t => (MDRawThread.threadId t, true)) =
      (m.getCrashThread.map MDRawThread.threadId).toList.map (·, true) := by
    cases m.getCrashThread <;> rfl
  have hothers (k : ℕ) : ((m.threads.filter (MDRawThread.threadId · ≠ k)).map
      fun t => (MDRawThread.threadId t, false)) =
        ((p.threads.map (·.threadId.toNat)).filter (· ≠ k)).map (·, false) := by
    rw [← hids, List.filter_map, List.map_map]
    rfl
  rw [Minidump.shownThreads, List.map_append, List.map_map, List.map_map, shownIds]
  simp only [Function.comp_def, hfirst, hothers, hid, hcrash]
  split <;> rfl

/-- The context that has been loaded for a thread is the one that is shown. -/
theorem Loaded.getContext (h : p.Loaded m) (id : ℕ) : m.getContext id = p.shownContext id :=
  h.contexts id

/-- A thread is printed from the saved process, and what has been loaded stays loaded. -/
theorem Loaded.dumpThread (h : p.Loaded m) (hsmall : p.image.length < 2 ^ 32)
    (thread : MDRawThread) (crashed : Bool)
    (hspace : ShowsStack (p.shownContext thread.threadId) →
      spOf (p.shownContext thread.threadId) ≤ fpOf (p.shownContext thread.threadId)) :
    ∃ m', m.dumpThread thread crashed = (threadText thread.threadId crashed
      (p.shownContext thread.threadId) (p.shownStack thread.threadId), m') ∧ p.Loaded m' := by
  rw [Minidump.dumpThread_eq, h.getContext]
  unfold Minidump.stackBuffer shownStack
  by_cases hshows : ShowsStack (p.shownContext thread.threadId)
  · have hle := hspace hshows
    have hend : (spOf (p.shownContext thread.threadId)).toNat +
        (fpOf (p.shownContext thread.threadId) - spOf (p.shownContext thread.threadId)).toNat <
          2 ^ 64 := by
      have hlt := (fpOf (p.shownContext thread.threadId)).isLt
      rw [BitVec.toNat_sub_of_le hle]
      rw [BitVec.le_def] at hle
      omega
    obtain ⟨m', hmemory, hloaded⟩ := h.getMemory hsmall hend
    exact ⟨m', by simp only [if_pos hshows, hmemory], hloaded⟩
  · exact ⟨m, by simp only [if_neg hshows], h⟩

/-- Threads are printed from the saved process. Induction on the threads. -/
theorem Loaded.dumpEach (h : p.Loaded m) (hsmall : p.image.length < 2 ^ 32)
    {shown : List (MDRawThread × Bool)}
    (hspace : ∀ t ∈ shown, ShowsStack (p.shownContext (MDRawThread.threadId t.1)) →
      spOf (p.shownContext (MDRawThread.threadId t.1)) ≤
        fpOf (p.shownContext (MDRawThread.threadId t.1))) :
    (DwarfExpr.dumpEach shown m).1 =
      (shown.map fun t => (MDRawThread.threadId t.1, t.2)).flatMap fun (id, crashed) =>
        threadText id crashed (p.shownContext id) (p.shownStack id) := by
  induction shown generalizing m with
  | nil => rfl
  | cons t shown ih =>
    obtain ⟨thread, crashed⟩ := t
    obtain ⟨hfirst, hmore⟩ := List.forall_mem_cons.mp hspace
    obtain ⟨m', hdump, hloaded⟩ := h.dumpThread hsmall thread crashed hfirst
    rw [List.map_cons, List.flatMap_cons, ← ih hloaded hmore]
    simp only [DwarfExpr.dumpEach, hdump]

end SavedProcess

end DwarfExpr
