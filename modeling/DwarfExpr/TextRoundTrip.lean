import Mathlib.Data.List.Infix
import DwarfExpr.StackDump
import DwarfExpr.StackVariables
import DwarfExpr.TextSections

/-!
# Text dumps as a whole

A text dump begins with lines about the process and goes on with its threads: the header of
a thread, and for each frame its line, its registers, how it was found, and perhaps a dump
of its stack. Between these stand lines that mean nothing to the convertor.
-/

namespace DwarfExpr

open NumberText (ofText)
open Words (words)

/-- The header of a thread. -/
def threadLine (tid : ℕ) (crashed : Bool) : TextLine :=
  "Thread".toList ++ ' ' :: (Nat.toDigits 10 tid ++
    if crashed then " (crashed)\n".toList else ['\n'])

/-- The line of a frame: its number takes two characters or more. -/
def frameLine (num : ℕ) (func : List Char) : TextLine :=
  List.replicate (2 - (Nat.toDigits 10 num).length) ' ' ++ (Nat.toDigits 10 num ++
    ' ' :: ' ' :: (func ++ ['\n']))

/-- A line that means nothing outside the blocks of a frame. -/
structure Idle (line : TextLine) : Prop where
  nonempty : line ≠ []
  noHeader : ¬StartsThread line
  noFrame : frameHeader (if line.head? = some ' ' then line.tail else line) = none
  noContents : ¬"Stack contents:".toList <+: NumberText.strip isSpace line

/-- A stack dump with a byte and no row at zero, of which the last row is no trap, and the
line that ends it. -/
structure PrintedStack where
  indent : ℕ
  base : BitVec 64
  bytes : List UInt8
  close : TextLine
  nonempty : bytes ≠ []
  noRowAtZero : NoRowAtZero base bytes
  harmless : HarmlessColumn (partialRow bytes)
  closes : NoHexLine close
  noHeader : ¬StartsThread close

/-- The lines of a stack dump. -/
def PrintedStack.lines (s : PrintedStack) : List TextLine :=
  contentsLine s.indent :: (stackRows s.indent s.base s.bytes ++ [s.close])

/-- A frame as it is printed. -/
structure PrintedFrame (target : RegisterTarget) where
  num : ℕ
  func : List Char
  registers : RegisterDump target
  foundBy : TextLine
  notes : List TextLine
  stack : Option PrintedStack
  more : List TextLine
  func_line : '\n' ∉ func
  foundBy_ends : '=' ∉ foundBy ∧ ¬StartsThread foundBy
  notes_idle : ∀ line ∈ notes, Idle line
  more_idle : ∀ line ∈ more, Idle line

/-- A thread as it is printed. -/
structure PrintedThread (target : RegisterTarget) where
  tid : ℕ
  crashed : Bool
  notes : List TextLine
  frames : List (PrintedFrame target)
  notes_idle : ∀ line ∈ notes, Idle line

/-- A text dump, with the lines in front of the threads. -/
structure TextDump (target : RegisterTarget) where
  info : List TextLine
  threads : List (PrintedThread target)
  info_noHeader : ∀ line ∈ info, ¬StartsThread line

section

variable {target : RegisterTarget}

/-- The lines of a frame. -/
def PrintedFrame.lines (frame : PrintedFrame target) : List TextLine :=
  frameLine frame.num frame.func :: (frame.registers.lines.map (registerLine target.digits) ++
    frame.foundBy :: (frame.notes ++ (frame.stack.elim [] PrintedStack.lines ++ frame.more)))

/-- The lines of a thread. -/
def PrintedThread.lines (thread : PrintedThread target) : List TextLine :=
  threadLine thread.tid thread.crashed :: (thread.notes ++
    thread.frames.flatMap PrintedFrame.lines)

/-- The lines of a text dump. -/
def TextDump.lines (dump : TextDump target) : List TextLine :=
  dump.info ++ dump.threads.flatMap PrintedThread.lines

/-- A printed frame for the convertor. -/
def PrintedFrame.converted (frame : PrintedFrame target) : ConvertorFrame where
  num := frame.num
  func := .ofList frame.func
  regs := frame.registers.registers.map fun r => (r.value : ℤ)
  stackBaseAddr := frame.stack.elim 0 fun s => (s.base.toNat : ℤ)
  stack := frame.stack.elim [] PrintedStack.bytes

/-- A printed thread for the convertor. -/
def PrintedThread.converted (thread : PrintedThread target) : ConvertorThread :=
  ⟨thread.tid, thread.crashed, thread.frames.map PrintedFrame.converted⟩

/-- The threads of a text dump for the convertor. -/
def TextDump.converted (dump : TextDump target) : List ConvertorThread :=
  dump.threads.map PrintedThread.converted

end

/-- A text without an opening parenthesis does not have `(crashed)` in it. -/
theorem crashed_not_mem {line : TextLine} (hline : '(' ∉ line) :
    line.tails.any ("(crashed)".toList.isPrefixOf ·) = false := by
  rw [List.any_eq_false]
  intro t ht hprefix
  have hsuffix := (List.mem_tails _ _).mp ht
  have hmem := (List.isPrefixOf_iff_prefix.mp hprefix).subset (List.mem_cons_self ..)
  exact hline (hsuffix.subset hmem)

/-- The header of a thread is read back. -/
theorem threadHeader_threadLine (tid : ℕ) (crashed : Bool) :
    threadHeader (threadLine tid crashed) = some ⟨tid, crashed, []⟩ := by
  have hspecial {c : Char} (hc : c ∈ [' ', '(']) : c ∉ Nat.toDigits 10 tid := by
    intro hmem
    have hdigit := Nat.isDigit_of_mem_toDigits (by decide) (by decide) hmem
    simp only [List.mem_cons, List.not_mem_nil, or_false] at hc
    rcases hc with rfl | rfl <;> exact absurd hdigit (by decide)
  have hblank : ' ' ∉ Nat.toDigits 10 tid := hspecial (by simp)
  have hparen : '(' ∉ Nat.toDigits 10 tid := hspecial (by simp)
  have hword : ' ' ∉ "Thread".toList := by decide
  have hsplit : (threadLine tid crashed).splitOn ' ' =
      "Thread".toList :: (Nat.toDigits 10 tid ++
        if crashed then " (crashed)\n".toList else ['\n']).splitOn ' ' := by
    rw [threadLine, List.splitOn_append_cons_self, List.splitOn_eq_singleton hword]
    rfl
  cases crashed with
  | true =>
    have hcrashed : (threadLine tid true).tails.any ("(crashed)".toList.isPrefixOf ·) = true := by
      rw [List.any_eq_true]
      refine ⟨"(crashed)\n".toList, (List.mem_tails _ _).mpr ?_, by decide⟩
      exact ⟨"Thread ".toList ++ (Nat.toDigits 10 tid ++ [' ']), by simp [threadLine]⟩
    have hnumber := @NumberText.ofText_toDigits tid [] (by simp)
    have hback : Nat.toDigits 10 tid ++ (if true then " (crashed)\n".toList else ['\n']) =
        Nat.toDigits 10 tid ++ ' ' :: "(crashed)\n".toList := rfl
    rw [hback, List.splitOn_append_cons_self, List.splitOn_eq_singleton hblank] at hsplit
    rw [List.append_nil] at hnumber
    rw [threadHeader, hsplit, hcrashed]
    simp only [List.singleton_append, List.getElem?_cons_succ, List.getElem?_cons_zero, hnumber,
      Option.map_some]
  | false =>
    have hnot : (threadLine tid false).tails.any ("(crashed)".toList.isPrefixOf ·) = false :=
      crashed_not_mem (by simp [threadLine, hparen])
    have hnumber := @NumberText.ofText_toDigits tid ['\n'] (by simp [NumberText.isBlank])
    have hback : ' ' ∉ Nat.toDigits 10 tid ++ ['\n'] := by
      rw [List.mem_append, not_or]
      exact ⟨hblank, by decide⟩
    rw [if_neg (by decide), List.splitOn_eq_singleton hback] at hsplit
    rw [threadHeader, hsplit, hnot]
    simp only [List.getElem?_cons_succ, List.getElem?_cons_zero, hnumber, Option.map_some]

/-- The line of a frame is read back. -/
theorem frameHeader_digits (num : ℕ) {func : List Char} (hfunc : '\n' ∉ func) :
    frameHeader (Nat.toDigits 10 num ++ ' ' :: ' ' :: (func ++ ['\n'])) =
      some ⟨num, .ofList func, [], 0, []⟩ := by
  have hdigits : ∀ c ∈ Nat.toDigits 10 num, c.isDigit = true := fun c hc =>
    Nat.isDigit_of_mem_toDigits (by decide) (by decide) hc
  have hnumber := @NumberText.ofText_toDigits num [] (by simp)
  have hkept : (func ++ ['\n']).takeWhile (fun c => decide (c ≠ '\n')) = func := by
    rw [List.takeWhile_append_of_pos]
    · simp
    · intro c hc
      have hne : c ≠ '\n' := fun h => hfunc (h ▸ hc)
      simpa using hne
  have htake : (Nat.toDigits 10 num ++ ' ' :: ' ' :: (func ++ ['\n'])).takeWhile Char.isDigit =
      Nat.toDigits 10 num := by
    rw [List.takeWhile_append_of_pos hdigits, List.takeWhile_cons_of_neg (by decide),
      List.append_nil]
  have hdrop : (Nat.toDigits 10 num ++ ' ' :: ' ' :: (func ++ ['\n'])).dropWhile Char.isDigit =
      ' ' :: ' ' :: (func ++ ['\n']) := by
    rw [List.dropWhile_append_of_pos hdigits, List.dropWhile_cons_of_neg (by decide)]
  rw [List.append_nil] at hnumber
  unfold frameHeader
  simp only [htake, hdrop, if_neg Nat.toDigits_ne_nil, hnumber, hkept, Option.map_some]

/-- A line that begins with a digit is no header. -/
theorem not_startsThread_of_isDigit {c : Char} (hc : c.isDigit = true) (text : List Char) :
    ¬StartsThread (c :: text) := by
  rintro ⟨rest, hrest⟩
  obtain rfl : 'T' = c := (List.cons.inj hrest).1
  exact absurd hc (by decide)

/-- The line of a frame begins it. -/
theorem parseLine_frameLine (num : ℕ) {func : List Char} (hfunc : '\n' ∉ func)
    (threads : List ConvertorThread) (thread : ConvertorThread) :
    parseLine ⟨.thread, threads ++ [thread]⟩ (frameLine num func) =
      some ⟨.register, threads ++ [{ thread with
        frames := thread.frames ++ [⟨num, .ofList func, [], 0, []⟩] }]⟩ := by
  have hheader := frameHeader_digits num hfunc
  have hlength := @Nat.length_toDigits_pos 10 num
  obtain ⟨first, digits, hdigits⟩ := List.exists_cons_of_ne_nil (@Nat.toDigits_ne_nil num 10)
  have hfirst : first.isDigit = true := by
    apply @Nat.isDigit_of_mem_toDigits 10 num first (by decide) (by decide)
    rw [hdigits]
    exact List.mem_cons_self ..
  rw [hdigits, List.length_cons] at hlength
  rw [hdigits, List.cons_append] at hheader
  unfold parseLine frameLine
  rw [hdigits, List.cons_append, List.length_cons]
  rcases Nat.eq_zero_or_pos digits.length with hzero | hpos
  · have hblank : List.replicate (2 - (digits.length + 1)) ' ' = [' '] := by
      rw [hzero]
      rfl
    rw [hblank, List.singleton_append, if_neg (blank_not_thread _)]
    simp only [if_true, hheader, onLast_concat, Option.map_some]
  · have hblank : List.replicate (2 - (digits.length + 1)) ' ' = [] := by
      rw [Nat.sub_eq_zero_of_le (by omega)]
      rfl
    have hne : first ≠ ' ' := by
      rintro rfl
      exact absurd hfirst (by decide)
    rw [hblank, List.nil_append, if_neg (not_startsThread_of_isDigit hfirst _)]
    simp only [if_neg hne, hheader, onLast_concat, Option.map_some]

/-- A line that means nothing is skipped. -/
theorem parseLine_idle {line : TextLine} (hline : Idle line) (threads : List ConvertorThread) :
    parseLine ⟨.thread, threads⟩ line = some ⟨.thread, threads⟩ := by
  obtain ⟨c, rest, rfl⟩ := List.exists_cons_of_ne_nil hline.nonempty
  have hframe := hline.noFrame
  simp only [List.head?_cons, Option.some.injEq, List.tail_cons] at hframe
  unfold parseLine
  rw [if_neg hline.noHeader]
  simp only [hframe, if_neg hline.noContents]

/-- Lines that mean nothing are skipped. Induction on the lines. -/
theorem run_idle {lines : List TextLine} (hlines : ∀ line ∈ lines, Idle line)
    (threads : List ConvertorThread) :
    lines.foldlM parseLine ⟨.thread, threads⟩ = some ⟨.thread, threads⟩ := by
  induction lines with
  | nil => rfl
  | cons line lines ih =>
    obtain ⟨hline, hmore⟩ := List.forall_mem_cons.mp hlines
    rw [List.foldlM_cons, parseLine_idle hline]
    exact ih hmore

/-- The line that ends a stack dump is skipped. -/
theorem parseLine_close {line : TextLine} (hline : NoHexLine line) (hheader : ¬StartsThread line)
    (threads : List ConvertorThread) (thread : ConvertorThread) (frame : ConvertorFrame) :
    parseLine (inStack threads thread frame) line =
      some { inStack threads thread frame with block := .thread } := by
  obtain ⟨token, htoken, hnumber⟩ := hline
  obtain ⟨rest, hrest⟩ := List.head?_eq_some_iff.mp htoken
  have haddr : hexint token 0 = 0 := by rw [hexint, hnumber, Option.getD_none]
  unfold parseLine
  rw [if_neg hheader]
  simp only [inStack, tokenizer_blank, hrest, List.take_succ_cons, haddr, ne_eq,
    not_true_eq_false, if_false, onLastFrame_concat, Option.map_some]

/-- A printed stack dump is the stack of the frame. -/
theorem PrintedStack.run_lines (s : PrintedStack) (threads : List ConvertorThread)
    (thread : ConvertorThread) {frame : ConvertorFrame} (hbase : frame.stackBaseAddr = 0)
    (hstack : frame.stack = []) :
    s.lines.foldlM parseLine { inStack threads thread frame with block := .thread } =
      some { inStack threads thread { frame with
        stackBaseAddr := (s.base.toNat : ℤ), stack := s.bytes } with block := .thread } := by
  have hharmless : appendBytes s.bytes ((columnTokens (partialRow s.bytes)).take
      (16 - (partialRow s.bytes).length)) = some s.bytes :=
    appendBytes_eq_self_iff.mpr
      ((harmlessColumn_iff (length_partialRow_lt s.bytes)).mpr s.harmless)
  have hrows := run_stackRows s.indent s.nonempty s.noRowAtZero threads thread frame
  rw [hstack, List.nil_append, hharmless, Option.map_some,
    ConvertorFrame.withRow_of_noBase hbase] at hrows
  have hcontents := parseLine_contentsLine s.indent (inStack threads thread frame).threads
  have hclose := parseLine_close s.closes s.noHeader threads thread
    { frame with stackBaseAddr := (s.base.toNat : ℤ), stack := s.bytes }
  rw [PrintedStack.lines, List.foldlM_cons, hcontents]
  simp only [Option.bind_eq_bind, Option.bind_some, List.foldlM_append]
  have hstart : (⟨.stack, (inStack threads thread frame).threads⟩ : ParserState) =
      inStack threads thread frame := rfl
  rw [hstart, hrows, Option.bind_some, List.foldlM_cons, hclose]
  rfl

section

variable {target : RegisterTarget}

/-- The registers of any frame. -/
theorem run_registers (dump : RegisterDump target) (threads : List ConvertorThread)
    (thread : ConvertorThread) (frame : ConvertorFrame) :
    (dump.lines.map (registerLine target.digits)).foldlM parseLine
        { inStack threads thread frame with block := .register } =
      some { inStack threads thread { frame with
        regs := frame.regs ++ dump.registers.map fun r => (r.value : ℤ) } with
          block := .register } := by
  have hlines : ∀ line ∈ dump.lines, line ≠ [] ∧ ∀ r ∈ line, r.Of target := fun line hline =>
    ⟨dump.nonempty line hline, fun r hr => dump.of (List.mem_flatten_of_mem hline hr)⟩
  have hbegun : Begun thread.frames (inRegisters thread frame).threads :=
    ⟨_, [], rfl, Or.inr (List.cons_ne_nil _ _)⟩
  have hrun := run_behind hbegun threads (dump.lines.map (registerLine target.digits))
  rw [run_registerLines hlines thread frame] at hrun
  exact hrun

/-- The lines of a frame add it to the last thread. -/
theorem PrintedFrame.run_lines (frame : PrintedFrame target) (threads : List ConvertorThread)
    (thread : ConvertorThread) :
    frame.lines.foldlM parseLine ⟨.thread, threads ++ [thread]⟩ =
      some ⟨.thread, threads ++ [{ thread with
        frames := thread.frames ++ [frame.converted] }]⟩ := by
  obtain ⟨num, func, registers, foundBy, notes, stack, more, hfunc, ⟨hequals, hnot⟩, hnotes,
    hmore⟩ := frame
  let start : ConvertorFrame := ⟨num, .ofList func, [], 0, []⟩
  let registered : ConvertorFrame :=
    { start with regs := registers.registers.map fun r => (r.value : ℤ) }
  have hregisters : (registers.lines.map (registerLine target.digits)).foldlM parseLine
      { inStack threads thread start with block := .register } =
        some { inStack threads thread registered with block := .register } :=
    run_registers registers threads thread start
  have hfoundBy : parseLine { inStack threads thread registered with block := .register } foundBy =
      some { inStack threads thread registered with block := .thread } := by
    unfold parseLine
    rw [if_neg hnot]
    simp only [if_neg hequals]
  let converted : ConvertorFrame :=
    ⟨num, .ofList func, registered.regs, stack.elim 0 fun s => (s.base.toNat : ℤ),
      stack.elim [] PrintedStack.bytes⟩
  have hstack : (stack.elim [] PrintedStack.lines).foldlM parseLine
      { inStack threads thread registered with block := .thread } =
        some { inStack threads thread converted with block := .thread } := by
    cases stack with
    | none => rfl
    | some s => exact s.run_lines threads thread rfl rfl
  have hframe := parseLine_frameLine num hfunc threads thread
  have hnotes' := run_idle hnotes (inStack threads thread registered).threads
  have hmore' := run_idle hmore (inStack threads thread converted).threads
  simp only [inStack, start] at hregisters hfoundBy hstack hnotes' hmore'
  simp only [PrintedFrame.lines, List.foldlM_cons, List.foldlM_append, Option.bind_eq_bind, hframe,
    hregisters, hfoundBy, hnotes', hstack, hmore', Option.bind_some]
  rfl

/-- The lines of frames add them to the last thread. Induction on the frames. -/
theorem run_frames (frames : List (PrintedFrame target)) (threads : List ConvertorThread)
    (thread : ConvertorThread) :
    (frames.flatMap PrintedFrame.lines).foldlM parseLine ⟨.thread, threads ++ [thread]⟩ =
      some ⟨.thread, threads ++ [{ thread with
        frames := thread.frames ++ frames.map PrintedFrame.converted }]⟩ := by
  induction frames generalizing thread with
  | nil => simp
  | cons frame frames ih =>
    rw [List.flatMap_cons, List.foldlM_append, frame.run_lines, Option.bind_eq_bind,
      Option.bind_some, ih]
    simp only [List.map_cons, List.append_assoc, List.singleton_append]

/-- The lines of a thread add it to the threads, whatever the block before them. -/
theorem PrintedThread.run_lines (thread : PrintedThread target) (st : ParserState) :
    thread.lines.foldlM parseLine st = some ⟨.thread, st.threads ++ [thread.converted]⟩ := by
  have hheader : StartsThread (threadLine thread.tid thread.crashed) := List.prefix_append _ _
  have hframes := run_frames thread.frames st.threads ⟨thread.tid, thread.crashed, []⟩
  rw [PrintedThread.lines, List.foldlM_cons, parseLine_startsThread hheader,
    threadHeader_threadLine]
  simp only [Option.map_some, Option.bind_eq_bind, Option.bind_some, List.foldlM_append,
    run_idle thread.notes_idle, hframes]
  rfl

/-- The lines of threads add them. Induction on the threads. -/
theorem run_threads (printed : List (PrintedThread target)) (st : ParserState) :
    ∃ block, (printed.flatMap PrintedThread.lines).foldlM parseLine st =
      some ⟨block, st.threads ++ printed.map PrintedThread.converted⟩ := by
  induction printed generalizing st with
  | nil => exact ⟨st.block, by simp⟩
  | cons thread printed ih =>
    obtain ⟨block, hrun⟩ := ih ⟨.thread, st.threads ++ [thread.converted]⟩
    refine ⟨block, ?_⟩
    rw [List.flatMap_cons, List.foldlM_append, thread.run_lines, Option.bind_eq_bind,
      Option.bind_some, hrun, List.map_cons, List.append_assoc, List.singleton_append]

/-- The lines of a text dump add its threads. Induction on the lines in front of them. -/
theorem TextDump.run_lines (dump : TextDump target) :
    ∃ block, dump.lines.foldlM parseLine ⟨.info, []⟩ = some ⟨block, dump.converted⟩ := by
  obtain ⟨info, threads, hinfo⟩ := dump
  induction info with
  | nil => exact run_threads threads ⟨.info, []⟩
  | cons line info ih =>
    obtain ⟨hline, hmore⟩ := List.forall_mem_cons.mp hinfo
    obtain ⟨block, hrun⟩ := ih hmore
    refine ⟨block, ?_⟩
    rw [lines, List.cons_append, List.foldlM_cons, parseLine_info hline]
    exact hrun

/-- A text dump is read back whole: all its threads, their frames, and the number, the
function, the registers and the stack of each frame. -/
theorem TextDump.parse_lines (dump : TextDump target) :
    parseMinidumpTxtFile dump.lines = some dump.converted := by
  obtain ⟨block, hrun⟩ := dump.run_lines
  rw [parseMinidumpTxtFile, hrun, Option.map_some]

/-- The sizes of a frame fit their fields in the context file. -/
structure PrintedFrame.Fits (frame : PrintedFrame target) : Prop where
  num : frame.num < 2 ^ 32
  func : frame.converted.funcB.length < 2 ^ 32
  stack : frame.converted.stack.length < 2 ^ 32

/-- The sizes of a thread fit their fields in the context file. -/
structure PrintedThread.Fits (thread : PrintedThread target) : Prop where
  tid : thread.tid < 2 ^ 32
  frames : thread.frames.length < 2 ^ 32
  frame : ∀ frame ∈ thread.frames, frame.Fits

/-- The values of registers and the base addresses of stacks always fit. -/
theorem PrintedFrame.converted_fits_iff (frame : PrintedFrame target) :
    frame.converted.Fits ↔ frame.Fits := by
  constructor
  · intro h
    have hnum := h.num.2
    simp only [converted] at hnum
    exact ⟨by omega, h.func, h.stackSize⟩
  · intro h
    have hnum := h.num
    have hlength := frame.registers.inOrder.length_le
    have hfew := target.few
    rw [List.length_map] at hlength
    refine ⟨⟨Int.natCast_nonneg _, by simp only [converted]; omega⟩, h.func, ?_, ?_, ?_, h.stack⟩
    · simp only [converted, List.length_map, RegisterDump.registers]
      omega
    · intro r hr
      obtain ⟨printed, hprinted, rfl⟩ := List.mem_map.mp hr
      have hvalue := frame.registers.fits printed hprinted
      have hdigits := Nat.pow_le_pow_right (by decide : 0 < 16) target.digits_le
      have hbound : (16 : ℕ) ^ 16 = 2 ^ 64 := by decide
      exact ⟨Int.natCast_nonneg _, by omega⟩
    · cases hstack : frame.stack with
      | none => simp [converted, hstack]
      | some s =>
        have hbase := s.base.isLt
        simp only [converted, hstack, Option.elim_some]
        omega

theorem PrintedThread.converted_fits_iff (thread : PrintedThread target) :
    thread.converted.Fits ↔ thread.Fits := by
  have hframes : (∀ f ∈ thread.converted.frames, f.Fits) ↔
      ∀ frame ∈ thread.frames, frame.Fits := by
    simp only [converted, List.forall_mem_map, PrintedFrame.converted_fits_iff]
  constructor
  · intro h
    have htid := h.tid.2
    have hlength := h.framesSize
    simp only [converted, List.length_map] at htid hlength
    exact ⟨by omega, hlength, hframes.mp h.frames⟩
  · intro h
    have htid := h.tid
    have hlength := h.frames
    refine ⟨⟨Int.natCast_nonneg _, ?_⟩, ?_, hframes.mpr h.frame⟩
    · simp only [converted]
      omega
    · simpa only [converted, List.length_map] using hlength

/-- The threads of a text dump that a limit leaves. -/
def TextDump.limited (dump : TextDump target) (limit : ℤ) : List (PrintedThread target) :=
  if limit = -1 then dump.threads else dump.threads.take limit.toNat

/-- The limit leaves as many threads before the conversion as after it. -/
theorem TextDump.limitThreads_converted (dump : TextDump target) (limit : ℤ) :
    limitThreads dump.converted limit = (dump.limited limit).map PrintedThread.converted := by
  unfold limitThreads limited TextDump.converted
  split
  · rfl
  · exact List.map_take.symm

end

/-- `main` of the convertor, on the lines of its input; `none` is an exception. -/
def convert (lines : List TextLine) (limit : ℤ) : Option (List UInt8) :=
  (parseMinidumpTxtFile lines).bind fun threads => writeContextFile threads limit

section

variable {target : RegisterTarget}

/-- Converting a text dump is writing its threads. -/
theorem TextDump.convert_lines (dump : TextDump target) (limit : ℤ) :
    convert dump.lines limit = writeContextFile dump.converted limit := by
  obtain ⟨block, hrun⟩ := dump.run_lines
  rw [convert, parseMinidumpTxtFile, hrun, Option.map_some, Option.bind_some]

/-- A text dump is converted exactly when the limit is -1 or not negative and the sizes of
what it leaves fit. -/
theorem TextDump.convert_ne_none_iff (dump : TextDump target) (limit : ℤ) :
    convert dump.lines limit ≠ none ↔ -1 ≤ limit ∧ (dump.limited limit).length < 2 ^ 32 ∧
      ∀ thread ∈ dump.limited limit, thread.Fits := by
  simp only [dump.convert_lines, Option.ne_none_iff_exists', writeContextFile_eq_some_iff,
    dump.limitThreads_converted, exists_and_left, exists_eq, and_true, List.length_map,
    List.forall_mem_map, PrintedThread.converted_fits_iff]

/-- A text dump goes through the context file to `dwarf2line` without a change exactly when
it can be converted and a null byte stands behind the buffer of each name: then the loaded
context has the threads of the text dump that the limit leaves, with all that is printed for
their frames. -/
theorem TextDump.loaded_iff (dump : TextDump target) (limit : ℤ)
    (memory : ℕ → ℕ → FrameMemory) {ctx : DwarfContext} (hctx : ctx.threads = []) :
    (∃ image ctx', convert dump.lines limit = some image ∧
        loadDwarfContextFile memory (.ofImage image) ctx = some (true, ctx') ∧
          List.Forall₂ DwarfContextThread.Equals ctx'.threads
            ((dump.limited limit).map PrintedThread.converted)) ↔
      (-1 ≤ limit ∧ (dump.limited limit).length < 2 ^ 32 ∧
          ∀ thread ∈ dump.limited limit, thread.Fits) ∧
        ∀ ti ∈ (dump.limited limit).zipIdx, ∀ fl ∈ ti.1.frames.zipIdx,
          (memory ti.2 fl.2).Terminates fl.1.converted.funcB := by
  have hnames : (∀ ti ∈ (limitThreads dump.converted limit).zipIdx, ∀ fl ∈ ti.1.frames.zipIdx,
        (memory ti.2 fl.2).Terminates fl.1.funcB) ↔
      ∀ ti ∈ (dump.limited limit).zipIdx, ∀ fl ∈ ti.1.frames.zipIdx,
        (memory ti.2 fl.2).Terminates fl.1.converted.funcB := by
    simp only [dump.limitThreads_converted, List.zipIdx_map, List.forall_mem_map, Prod.map_fst,
      Prod.map_snd, id_eq, PrintedThread.converted]
  rw [← dump.convert_ne_none_iff, Option.ne_none_iff_exists', ← dump.limitThreads_converted,
    ← hnames, dump.convert_lines]
  constructor
  · rintro ⟨image, ctx', hwrite, hload, hequals⟩
    exact ⟨⟨image, hwrite⟩,
      (loadDwarfContextFile_roundTrip_iff hwrite memory hctx).mp ⟨ctx', hload, hequals⟩⟩
  · rintro ⟨⟨image, hwrite⟩, hterminates⟩
    obtain ⟨ctx', hload, hequals⟩ :=
      (loadDwarfContextFile_roundTrip_iff hwrite memory hctx).mpr hterminates
    exact ⟨image, ctx', hwrite, hload, hequals⟩

/-- The base address of a loaded frame is the one that was converted. -/
theorem PrintedFrame.stackBase_loaded (frame : PrintedFrame target) {s : PrintedStack}
    (hstack : frame.stack = some s) (frameFunc : List UInt8) :
    (frame.converted.loaded frameFunc).stackBase = s.base := by
  have hbase := s.base.isLt
  have hword := @RawObject.word_store_encode 8 (.zero 8) s.base.toNat (by omega)
  simp only [DwarfContextFrame.stackBase, ConvertorFrame.loaded, converted, hstack,
    Option.elim_some, Int.toNat_natCast]
  rw [hword, BitVec.ofNat_toNat, BitVec.setWidth_eq]

/-- After a text dump has been converted and loaded, the first frame of its first thread has
the stack that is printed for it. -/
theorem TextDump.firstFrame_loaded (dump : TextDump target) {limit : ℤ} (hlimit : limit ≠ 0)
    {image : List UInt8} (hconvert : convert dump.lines limit = some image)
    {memory : ℕ → ℕ → FrameMemory} {ctx ctx' : DwarfContext} (hctx : ctx.threads = [])
    (hload : loadDwarfContextFile memory (.ofImage image) ctx = some (true, ctx'))
    {thread : PrintedThread target} {frame : PrintedFrame target} {s : PrintedStack}
    (hthread : dump.threads.head? = some thread) (hframe : thread.frames.head? = some frame)
    (hstack : frame.stack = some s) :
    ∃ loaded, getFirstThreadFrame (some ctx') = some loaded ∧ loaded.stackBase = s.base ∧
      loaded.stackMemory = s.bytes ∧ s.bytes.length < 2 ^ 32 := by
  obtain ⟨threads, hthreads⟩ := List.head?_eq_some_iff.mp hthread
  obtain ⟨frames, hframes⟩ := List.head?_eq_some_iff.mp hframe
  have hconverted : dump.converted = { thread.converted with
      frames := frame.converted :: frames.map PrintedFrame.converted } ::
        threads.map PrintedThread.converted := by
    rw [TextDump.converted, hthreads, List.map_cons, PrintedThread.converted, hframes,
      List.map_cons]
  rw [dump.convert_lines, hconverted] at hconvert
  obtain ⟨hfits, frameFunc, hfirst⟩ := getFirstThreadFrame_of_written hlimit hconvert hctx hload
  have hlength : s.bytes.length < 2 ^ 32 := by
    have hsize := hfits.stackSize
    simpa only [PrintedFrame.converted, hstack, Option.elim_some] using hsize
  refine ⟨_, hfirst, frame.stackBase_loaded hstack frameFunc, ?_, hlength⟩
  simp only [ConvertorFrame.loaded, PrintedFrame.converted, hstack, Option.elim_some]

/-- `dwarf2line` reads in a text dump that has been converted and loaded what is printed for
the first frame of its first thread: a request is answered with the bytes of the rows at its
address, or not at all if the rows do not have them all. -/
theorem TextDump.stackMemory_eq (dump : TextDump target) {limit : ℤ} (hlimit : limit ≠ 0)
    {image : List UInt8} (hconvert : convert dump.lines limit = some image)
    {memory : ℕ → ℕ → FrameMemory} {ctx ctx' : DwarfContext} (hctx : ctx.threads = [])
    (hload : loadDwarfContextFile memory (.ofImage image) ctx = some (true, ctx'))
    {thread : PrintedThread target} {frame : PrintedFrame target} {s : PrintedStack}
    (hthread : dump.threads.head? = some thread) (hframe : thread.frames.head? = some frame)
    (hstack : frame.stack = some s) (htop : s.base.toNat + s.bytes.length < 2 ^ 64)
    {addr size : BitVec 64}
    (hends : ¬AddressRange.Overruns 64 s.base.toNat s.bytes.length addr.toNat size.toNat) :
    stackMemoryProvider (some ctx') addr size.toNat =
      if AddressRange.Covers s.base.toNat s.bytes.length addr.toNat size.toNat then
        some (InputStream.slice s.bytes (addr.toNat - s.base.toNat) size.toNat)
      else none := by
  obtain ⟨loaded, hfirst, hbase, hmemory, hlength⟩ :=
    dump.firstFrame_loaded hlimit hconvert hctx hload hthread hframe hstack
  have hspace : loaded.InAddressSpace :=
    ⟨by rw [hmemory]; exact hlength, by rw [hbase, hmemory]; exact htop⟩
  have hread := @stackMemoryProvider_eq (some ctx') _ addr hfirst hspace size (by
    rw [DwarfContextFrame.Overruns, hbase, hmemory]
    exact hends)
  simpa only [DwarfContextFrame.Covers, DwarfContextFrame.bytesAt, hbase, hmemory] using hread

/-- A frame with the printed stack and nothing else. -/
def PrintedStack.frame (s : PrintedStack) : DwarfContextFrame :=
  ⟨.zero 4, [], [], (RawObject.zero 8).store 0 (LittleEndian.encode 8 s.base.toNat), s.bytes⟩

theorem PrintedStack.stackBase_frame (s : PrintedStack) : s.frame.stackBase = s.base := by
  have hbase := s.base.isLt
  have hword := @RawObject.word_store_encode 8 (.zero 8) s.base.toNat (by omega)
  simp only [DwarfContextFrame.stackBase, frame]
  rw [hword, BitVec.ofNat_toNat, BitVec.setWidth_eq]

/-- What is shown for a variable depends on the stack only. -/
theorem DwarfContextFrame.shown_congr {f g : DwarfContextFrame} (hbase : f.stackBase = g.stackBase)
    (hmemory : f.stackMemory = g.stackMemory) (type : DwarfType) (addr : DwarfAddr) :
    f.shown type addr = g.shown type addr := by
  have hcovers : f.Covers addr type.size ↔ g.Covers addr type.size := by
    rw [DwarfContextFrame.Covers, DwarfContextFrame.Covers, hbase, hmemory]
  have hbytes : f.bytesAt addr type.size = g.bytesAt addr type.size := by
    rw [DwarfContextFrame.bytesAt, DwarfContextFrame.bytesAt, hbase, hmemory]
  unfold DwarfContextFrame.shown
  rw [hbytes]
  apply if_congr Iff.rfl rfl
  exact if_congr hcovers rfl rfl

end

/-- A blank line means nothing. -/
theorem idle_blankLine : Idle ['\n'] where
  nonempty := by decide
  noHeader := by decide
  noFrame := by decide
  noContents := by decide

/-- A dump of a few bytes. -/
def fewBytes : PrintedStack where
  indent := 4
  base := 0x7fff1b137420
  bytes := [0xff, 0xff, 0xff, 0xff, 0x00, 0x2e]
  close := pointersLine
  nonempty := by decide
  noRowAtZero := by
    intro k hk
    obtain rfl : k = 0 := by
      simp only [List.length_cons, List.length_nil] at hk
      omega
    decide
  harmless := by decide
  closes := ⟨"Possible".toList, rfl, rfl⟩
  noHeader := by decide

/-- A frame with two registers and a few bytes of stack. -/
def crashFrame : PrintedFrame x8664 where
  num := 0
  func := "main".toList
  registers := firstTwo
  foundBy := foundByLine
  notes := [['\n']]
  stack := some fewBytes
  more := [['\n']]
  func_line := by decide
  foundBy_ends := by decide
  notes_idle := by
    intro line hline
    rw [List.mem_singleton.mp hline]
    exact idle_blankLine
  more_idle := by
    intro line hline
    rw [List.mem_singleton.mp hline]
    exact idle_blankLine

/-- A text dump of one thread that has crashed. -/
def crashDump : TextDump x8664 where
  info := ["Operating system: Linux\n".toList, ['\n']]
  threads := [⟨0, true, [], [crashFrame], by simp⟩]
  info_noHeader := by decide

/-- The text dump goes through to `dwarf2line`, with memory in which the name is ended. -/
theorem TextDump.loaded_iff_crashDump :
    ∃ image ctx', convert crashDump.lines (-1) = some image ∧
      loadDwarfContextFile (fun _ _ => heapWith [0, 0, 0, 0, 0]) (.ofImage image)
        ⟨.zero 12, []⟩ = some (true, ctx') ∧
      List.Forall₂ DwarfContextThread.Equals ctx'.threads
        ((crashDump.limited (-1)).map PrintedThread.converted) := by
  have hframe : crashFrame.Fits := ⟨by decide, by decide, by decide⟩
  have hthread : ∀ thread ∈ crashDump.limited (-1), thread.Fits := by
    intro thread hthread
    rw [List.mem_singleton.mp hthread]
    refine ⟨by decide, by decide, fun frame hmem => ?_⟩
    rw [List.mem_singleton.mp hmem]
    exact hframe
  refine (loaded_iff crashDump (-1) _ rfl).mpr ⟨⟨by decide, by decide, hthread⟩, ?_⟩
  unfold FrameMemory.Terminates
  decide

/-- The four bytes from the third on are read back. -/
theorem TextDump.stackMemory_eq_crashDump :
    ∃ image ctx', convert crashDump.lines (-1) = some image ∧
      loadDwarfContextFile (fun _ _ => heapWith [0, 0, 0, 0, 0]) (.ofImage image)
        ⟨.zero 12, []⟩ = some (true, ctx') ∧
      stackMemoryProvider (some ctx') 0x7fff1b137422 4 = some [0xff, 0xff, 0x00, 0x2e] := by
  let image := (writeContextFile crashDump.converted (-1)).getD []
  let ctx' := ((loadDwarfContextFile (fun _ _ => heapWith [0, 0, 0, 0, 0]) (.ofImage image)
    ⟨.zero 12, []⟩).getD (false, ⟨.zero 12, []⟩)).2
  have hconvert : convert crashDump.lines (-1) = some image := by
    rw [crashDump.convert_lines]
    decide
  have hload : loadDwarfContextFile (fun _ _ => heapWith [0, 0, 0, 0, 0]) (.ofImage image)
      ⟨.zero 12, []⟩ = some (true, ctx') := by decide
  refine ⟨image, ctx', hconvert, hload, ?_⟩
  exact @stackMemory_eq _ crashDump (-1) (by decide) image hconvert _ _ ctx' rfl hload _
    crashFrame fewBytes rfl rfl rfl (by decide) 0x7fff1b137422 4
    (by unfold AddressRange.Overruns; decide)

/-- The registers up to the stack pointer. -/
def upToStackPointer : RegisterDump x8664 where
  lines := [[⟨⟨"rax".toList, 0⟩, 0, 3⟩, ⟨⟨"rdx".toList, 1⟩, 0, 3⟩, ⟨⟨"rcx".toList, 2⟩, 0, 3⟩,
    ⟨⟨"rbx".toList, 3⟩, 0, 3⟩], [⟨⟨"rsi".toList, 4⟩, 0, 3⟩, ⟨⟨"rdi".toList, 5⟩, 0, 3⟩,
    ⟨⟨"rbp".toList, 6⟩, 0, 3⟩, ⟨⟨"rsp".toList, 7⟩, 0x7fff1b137418, 3⟩]]
  nonempty := by decide
  fits := by decide
  inOrder := by decide

/-- A text dump of a thread whose CFA lies in the printed stack. -/
def stackPointerDump : TextDump x8664 where
  info := []
  threads := [⟨0, true, [], [{ crashFrame with registers := upToStackPointer }], by simp⟩]
  info_noHeader := by decide

end DwarfExpr
