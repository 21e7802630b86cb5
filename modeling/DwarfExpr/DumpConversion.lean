import DwarfExpr.MinidumpDump

/-!
# What the convertor makes of a dump of minidump_dump

The dumps look like those that the convertor reads, but they have no lines of frames. So the
convertor finds no registers in them, and gives up at the first stack, which it has no frame
to store in.
-/

namespace DwarfExpr

open NumberText (toHex)
open Words (IsLine splitLines)

/-- The text is made of lines that mean nothing to the convertor. -/
def IdleText (text : List Char) : Prop :=
  ∃ lines : List TextLine, text = lines.flatten ∧ ∀ line ∈ lines, IsLine '\n' line ∧ Idle line

theorem IdleText.nil : IdleText [] := ⟨[], rfl, by simp⟩

theorem IdleText.append {s t : List Char} (hs : IdleText s) (ht : IdleText t) :
    IdleText (s ++ t) := by
  obtain ⟨lines, rfl, hlines⟩ := hs
  obtain ⟨lines', rfl, hlines'⟩ := ht
  refine ⟨lines ++ lines', List.flatten_append.symm, ?_⟩
  rw [List.forall_mem_append]
  exact ⟨hlines, hlines'⟩

/-- Texts that mean nothing, one after the other. Induction on their number. -/
theorem IdleText.flatMap {α : Type} {text : α → List Char} (htext : ∀ x, IdleText (text x))
    (xs : List α) : IdleText (xs.flatMap text) := by
  induction xs with
  | nil => exact .nil
  | cons x xs ih => exact (htext x).append ih

/-- A line that begins, behind its blanks, with no digit, no `S` and no `T`. A digit may stand
behind more than one blank. -/
theorem idle_of_first (front : ℕ) {c : Char} (rest : List Char) (hspace : isSpace c = false)
    (hfirst : c ∉ ['S', 'T']) (hdigit : front ≤ 1 → c.isDigit = false) :
    Idle (List.replicate front ' ' ++ c :: rest) := by
  have hblank : c ≠ ' ' := by
    rintro rfl
    exact absurd hspace (by decide)
  have hS : c ≠ 'S' := fun h => hfirst (by simp [h])
  have hT : c ≠ 'T' := fun h => hfirst (by simp [h])
  refine ⟨by simp, ?_, ?_, ?_⟩
  · cases front with
    | zero =>
      rintro ⟨more, hmore⟩
      exact hT (List.cons.inj hmore).1.symm
    | succ front => exact blank_not_thread _
  · rcases front with _ | _ | front
    · rw [List.replicate_zero, List.nil_append, if_neg (by simpa using hblank)]
      exact frameHeader_of_not_digit (hdigit (by decide)) rest
    · exact frameHeader_of_not_digit (hdigit (by decide)) rest
    · exact frameHeader_of_not_digit (by decide) _
  · exact not_prefix_strip (fun x hx => isSpace_of_mem_blanks hx) hspace hS

/-- A blank line. -/
theorem IdleText.newline : IdleText ['\n'] :=
  ⟨[['\n']], rfl, by simpa using ⟨⟨[], by simp, rfl⟩, idle_blankLine⟩⟩

/-- Such a line with its newline. -/
theorem IdleText.line (front : ℕ) {c : Char} {rest : List Char} (hspace : isSpace c = false)
    (hfirst : c ∉ ['S', 'T']) (hdigit : front ≤ 1 → c.isDigit = false)
    (hrest : '\n' ∉ rest) : IdleText (List.replicate front ' ' ++ c :: (rest ++ ['\n'])) := by
  refine ⟨[List.replicate front ' ' ++ c :: (rest ++ ['\n'])], by simp, ?_⟩
  rw [List.forall_mem_singleton]
  refine ⟨⟨List.replicate front ' ' ++ c :: rest, ?_, by simp⟩,
    idle_of_first front _ hspace hfirst hdigit⟩
  have hc : '\n' ≠ c := by
    rintro rfl
    exact absurd hspace (by decide)
  simp [hrest, hc]

/-- A name of a register that does not make its line mean something. -/
def plainName (name : String) : Bool :=
  match name.toList with
  | [] => false
  | c :: rest => !isSpace c && c ∉ ['S', 'T'] && '\n' ∉ rest

theorem exists_of_plainName {name : String} (hname : plainName name) :
    ∃ c rest, name.toList = c :: rest ∧ isSpace c = false ∧ c ∉ ['S', 'T'] ∧ '\n' ∉ rest := by
  unfold plainName at hname
  cases hchars : name.toList with
  | nil => simp [hchars] at hname
  | cons c rest =>
    simp only [hchars, Bool.and_eq_true, Bool.not_eq_true', decide_eq_true_eq] at hname
    exact ⟨c, rest, rfl, hname.1.1, hname.1.2, hname.2⟩

/-- A value is printed on one line. -/
theorem newline_not_mem_toHex (width n : ℕ) : '\n' ∉ toHex width n := fun h =>
  (NumberText.ne_of_mem_toHex h).2 (by simp)

/-- A register is printed on one line. -/
theorem newline_not_mem_registerText {name : String} (hname : plainName name) (value : ℕ) :
    '\n' ∉ registerText name value := by
  obtain ⟨c, rest, hchars, hspace, -, hrest⟩ := exists_of_plainName hname
  have hc : '\n' ≠ c := by
    rintro rfl
    exact absurd hspace (by decide)
  simp [registerText, hchars, hc, hrest, newline_not_mem_toHex]

/-- A line that begins with a register. -/
theorem IdleText.registers {name : String} (hname : plainName name) (value : ℕ)
    {more : List Char} (hmore : '\n' ∉ more) :
    IdleText (registerText name value ++ (more ++ ['\n'])) := by
  obtain ⟨c, rest, hchars, hspace, hfirst, hrest⟩ := exists_of_plainName hname
  have hindent : "     ".toList = List.replicate 5 ' ' := by decide
  have hback : '\n' ∉ rest ++ (" = 0x".toList ++ (toHex 16 value ++ more)) := by
    simp [hrest, newline_not_mem_toHex, hmore]
  have hline := IdleText.line 5 hspace hfirst (fun h => absurd h (by decide)) hback
  rw [registerText, hindent, hchars]
  simpa only [List.append_assoc, List.cons_append] using hline

/-- The registers of an AMD64 record. -/
theorem idleText_amd64Text (context : ContextRecord) : IdleText (amd64Text context) := by
  have hplain : ∀ row ∈ amd64Rows, row ≠ [] ∧ ∀ r ∈ row, plainName r.1 := by decide
  unfold amd64Text
  generalize amd64Rows = rows at hplain
  induction rows with
  | nil => exact .nil
  | cons row rows ih =>
    obtain ⟨⟨hne, hrow⟩, hmore⟩ := List.forall_mem_cons.mp hplain
    obtain ⟨⟨name, f⟩, row, rfl⟩ := List.exists_cons_of_ne_nil hne
    obtain ⟨hname, hnames⟩ := List.forall_mem_cons.mp hrow
    have hothers : '\n' ∉ row.flatMap fun r => registerText r.1 (context.field r.2) := by
      simp only [List.mem_flatMap, not_exists, not_and]
      exact fun r hr => newline_not_mem_registerText (hnames r hr) _
    have hline := IdleText.registers hname (context.field f) hothers
    rw [List.flatMap_cons]
    apply IdleText.append _ (ih hmore)
    simpa only [List.flatMap_cons, List.append_assoc] using hline

/-- The ARM64 registers from an even index on. Induction on the names, two on a line. -/
theorem idleText_arm64Loop (context : ContextRecord) {i : ℕ} (hi : i % 2 = 0) {names : List String}
    (hnames : ∀ name ∈ names, plainName name) : IdleText (arm64Loop context i names) := by
  have hindent : "     ".toList = List.replicate 5 ' ' := by decide
  have hfirst {i : ℕ} (hi : i % 2 = 0) : behindRegister i = List.replicate 5 ' ' := by
    rw [behindRegister, if_neg (by omega), hindent]
  have hsecond {i : ℕ} (hi : i % 2 = 0) : behindRegister (i + 1) = ['\n'] := by
    rw [behindRegister, if_pos (by omega)]
  induction names using List.twoStepInduction generalizing i with
  | nil => exact .newline
  | singleton name =>
    rw [List.forall_mem_singleton] at hnames
    rw [arm64Loop, arm64Loop, hfirst hi]
    exact .registers hnames _ (by decide)
  | cons_cons name name' names ih =>
    obtain ⟨hname, hnames⟩ := List.forall_mem_cons.mp hnames
    obtain ⟨hname', hnames⟩ := List.forall_mem_cons.mp hnames
    have hmore : '\n' ∉ List.replicate 5 ' ' ++
        registerText name' (context.field ⟨8 + 8 * (i + 1), 8⟩) := by
      simp [newline_not_mem_registerText hname']
    have hline := IdleText.registers hname (context.field ⟨8 + 8 * i, 8⟩) hmore
    have hrest := hline.append (@ih (i + 1 + 1) (by omega) hnames)
    rw [arm64Loop, arm64Loop, hfirst hi, hsecond hi]
    simpa only [List.append_assoc] using hrest

/-- An `int` is printed on one line. -/
theorem newline_not_mem_decimal (n : ℤ) : '\n' ∉ decimal n := by
  have hdigits := @NumberText.newline_not_mem_toDigits 10 (by decide) (by decide) n.natAbs
  unfold decimal
  split
  · simp [hdigits]
  · exact hdigits

/-- The texts of the dump begin with these letters. -/
def startsText (text : List Char) : Bool := text.head?.any fun c => c ∈ ['C', 'E', 'G', 'O']

/-- A line that begins with such a letter. -/
theorem IdleText.text {text : List Char} (hfirst : startsText text) (htext : '\n' ∉ text) :
    IdleText (text ++ ['\n']) := by
  cases text with
  | nil => cases hfirst
  | cons c more =>
    have hletter : c ∈ ['C', 'E', 'G', 'O'] := of_decide_eq_true hfirst
    have hplain : isSpace c = false ∧ c ∉ ['S', 'T'] ∧ c.isDigit = false := by
      simp only [List.mem_cons, List.not_mem_nil, or_false] at hletter
      rcases hletter with rfl | rfl | rfl | rfl <;> decide
    exact IdleText.line 0 hplain.1 hplain.2.1 (fun _ => hplain.2.2)
      (not_or.mp (mt List.mem_cons.mpr htext)).2

/-- A label and what stands behind it. -/
theorem IdleText.labelled {label : List Char} (hfirst : startsText label)
    (hlabel : '\n' ∉ label) {value : List Char} (hvalue : '\n' ∉ value) :
    IdleText (label ++ value ++ ['\n']) := by
  apply IdleText.text
  · cases label with
    | nil => cases hfirst
    | cons c label => exact hfirst
  · simp [hlabel, hvalue]

/-- An error with a number. -/
theorem idleText_error {front : List Char} (hfirst : startsText front) (hfront : '\n' ∉ front)
    (n : ℤ) : IdleText (front ++ (decimal n ++ ['\n'])) := by
  rw [← List.append_assoc]
  exact .labelled hfirst hfront (newline_not_mem_decimal n)

/-- What is printed of a context means nothing to the convertor. -/
theorem idleText_registersText (context : Option MinidumpContext) :
    IdleText (registersText context) := by
  cases context with
  | none => exact .nil
  | some c =>
    have hdump : IdleText c.dumpContext := by
      unfold MinidumpContext.dumpContext
      split
      · exact .nil
      · exact idleText_amd64Text _
      · exact .nil
      · exact idleText_arm64Loop _ rfl (by decide)
      · exact idleText_arm64Loop _ rfl (by decide)
      · exact idleText_error (by decide) (by decide) _
    have hgetter : IdleText c.getterText := by
      unfold MinidumpContext.getterText
      split
      · exact .nil
      · exact idleText_error (by decide) (by decide) _
    exact hdump.append (hgetter.append (hgetter.append hgetter))

/-- A decimal digit is no space. -/
theorem isSpace_of_isDigit {c : Char} (hc : c.isDigit = true) : isSpace c = false := by
  have hseparators : ∀ n ∈ [0x1c, 0x1d, 0x1e, 0x1f], (Char.ofNat n).isDigit = false := by decide
  rw [isSpace, (NumberText.special_of_isDigit hc).1, Bool.false_or, decide_eq_false_iff_not]
  intro hmem
  have hno := hseparators c.toNat hmem
  rw [Char.ofNat_toNat, hc] at hno
  cases hno

/-- The line with the number of processors. -/
theorem idleText_processors (n : ℕ) :
    IdleText (List.replicate 5 ' ' ++ (Nat.toDigits 10 n ++ (" CPUs".toList ++ ['\n']))) := by
  obtain ⟨c, digits, hdigits⟩ := List.exists_cons_of_ne_nil (@Nat.toDigits_ne_nil n 10)
  have hdigit : c.isDigit = true := by
    apply @Nat.isDigit_of_mem_toDigits 10 n c (by decide) (by decide)
    rw [hdigits]
    exact List.mem_cons_self ..
  have hletter : c ∉ ['S', 'T'] := by
    intro hc
    simp only [List.mem_cons, List.not_mem_nil, or_false] at hc
    rcases hc with rfl | rfl <;> exact absurd hdigit (by decide)
  have hnewline := @NumberText.newline_not_mem_toDigits 10 (by decide) (by decide) n
  rw [hdigits] at hnewline
  have hback : '\n' ∉ digits ++ " CPUs".toList := by
    simp [(not_or.mp (mt List.mem_cons.mpr hnewline)).2]
  have hline := @IdleText.line 5 c _ (isSpace_of_isDigit hdigit) hletter
    (fun h => absurd h (by decide)) hback
  rw [hdigits]
  simpa only [List.append_assoc, List.cons_append] using hline

/-- What is printed of the process means nothing to the convertor. -/
theorem idleText_dumpSystemInfo (info : MDRawSystemInfo) : IdleText (dumpSystemInfo info) := by
  have hindent : "     ".toList = List.replicate 5 ' ' := by decide
  have hcpus : " CPUs\n\n".toList = " CPUs".toList ++ (['\n'] ++ ['\n']) := by decide
  have hgpu : "GPU: UNKNOWN\n\n".toList = "GPU: UNKNOWN".toList ++ (['\n'] ++ ['\n']) := by decide
  have hdigits := @NumberText.newline_not_mem_toDigits 10 (by decide) (by decide)
  have hsystem : '\n' ∉ operatingSystemText (MDRawSystemInfo.platformId info) := by
    unfold operatingSystemText
    split
    · decide
    · decide
    · exact hdigits _
  have hcpu : '\n' ∉ cpuText (MDRawSystemInfo.processorArchitecture info) := by
    unfold cpuText
    split
    · decide
    · decide
    · decide
    · decide
    · decide
    · exact hdigits _
  have hfirst : IdleText ("Operating system: ".toList ++
      operatingSystemText (MDRawSystemInfo.platformId info) ++ ['\n']) :=
    .labelled (by decide) (by decide) hsystem
  have hsecond : IdleText ("CPU: ".toList ++ cpuText (MDRawSystemInfo.processorArchitecture info) ++
      ['\n']) :=
    .labelled (by decide) (by decide) hcpu
  have hlast : IdleText ("GPU: UNKNOWN".toList ++ (['\n'] ++ ['\n'])) := by
    rw [← List.append_assoc]
    exact IdleText.append (.text (by decide) (by decide)) .newline
  have hthird := (idleText_processors (MDRawSystemInfo.numberOfProcessors info)).append
    (IdleText.newline.append hlast)
  have hall := hfirst.append (hsecond.append hthird)
  unfold dumpSystemInfo
  rw [hindent, hcpus, hgpu]
  simpa only [List.append_assoc] using hall

/-- What is printed of the exception means nothing to the convertor. -/
theorem idleText_dumpException (e : MDRawExceptionStream) : IdleText (dumpException e) := by
  have hend : "\n\n".toList = ['\n'] ++ ['\n'] := by decide
  have hfirst : IdleText ("Crash reason: ".toList ++
      Nat.toDigits 10 (MDRawExceptionStream.exceptionCode e) ++ ['\n']) :=
    .labelled (by decide) (by decide)
      (NumberText.newline_not_mem_toDigits (by decide) (by decide) _)
  have hsecond : IdleText ("Crash address: ".toList ++ "0x".toList ++
      Nat.toDigits 16 (MDRawExceptionStream.exceptionAddress e) ++ ['\n']) :=
    .labelled (by decide) (by decide)
      (NumberText.newline_not_mem_toDigits (by decide) (by decide) _)
  have hall := hfirst.append (hsecond.append .newline)
  unfold dumpException
  rw [hend]
  simpa only [List.append_assoc] using hall

/-- Text that means nothing leaves the convertor where it is, in front of the first thread or
between the frames of a thread. Induction on the lines. -/
theorem run_idleText {text : List Char} (htext : IdleText text) (rest : List Char)
    {st : ParserState} (hblock : st.block = .info ∨ st.block = .thread) :
    (splitLines '\n' (text ++ rest)).foldlM parseLine st =
      (splitLines '\n' rest).foldlM parseLine st := by
  obtain ⟨lines, rfl, hlines⟩ := htext
  have hskip {line : TextLine} (hline : Idle line) : parseLine st line = some st := by
    obtain ⟨block, threads⟩ := st
    rcases hblock with rfl | rfl
    · unfold parseLine
      rw [if_neg hline.noHeader]
    · exact parseLine_idle hline threads
  rw [Words.splitLines_flatten fun line hline => (hlines line hline).1]
  induction lines with
  | nil => rfl
  | cons line lines ih =>
    obtain ⟨⟨-, hidle⟩, hmore⟩ := List.forall_mem_cons.mp hlines
    rw [List.cons_append, List.foldlM_cons, hskip hidle]
    exact ih hmore

/-- The header of a thread is one line. -/
theorem isLine_threadLine (id : ℕ) (crashed : Bool) : IsLine '\n' (threadLine id crashed) := by
  have hdigits := @NumberText.newline_not_mem_toDigits 10 (by decide) (by decide) id
  cases crashed with
  | true =>
    refine ⟨"Thread".toList ++ ' ' :: (Nat.toDigits 10 id ++ " (crashed)".toList), ?_, ?_⟩
    · simp [hdigits]
    · simp [threadLine]
  | false =>
    refine ⟨"Thread".toList ++ ' ' :: Nat.toDigits 10 id, ?_, ?_⟩
    · simp [hdigits]
    · simp [threadLine]

/-- A stack begins with a line that the convertor takes for the beginning of one. -/
theorem parseLine_sizedContentsLine (context : Option MinidumpContext)
    (threads : List ConvertorThread) :
    parseLine ⟨.thread, threads⟩ (sizedContentsLine context) = some ⟨.stack, threads⟩ := by
  let size := Nat.toDigits (baseBehind context) (fpOf context - spOf context).toNat
  have hfront : "Stack contents: (".toList = "Stack contents:".toList ++ " (".toList := by decide
  have hend : ")\n".toList = [')'] ++ ['\n'] := by decide
  have hline : sizedContentsLine context = List.replicate 5 ' ' ++
      (("Stack contents:".toList ++ (" (".toList ++ (size ++ [')']))) ++ ['\n']) := by
    unfold sizedContentsLine
    rw [hfront, hend]
    simp only [List.append_assoc]
    rfl
  have hstrip : NumberText.strip isSpace (sizedContentsLine context) =
      "Stack contents:".toList ++ (" (".toList ++ (size ++ [')'])) := by
    rw [hline]
    apply NumberText.strip_append
    · exact fun c hc => isSpace_of_mem_blanks hc
    · intro c hc
      rw [List.mem_singleton.mp hc]
      decide
    · have hhead : "Stack contents:".toList.head? = some 'S' := by decide
      rw [List.head?_append, hhead, Option.some_or]
      rintro c ⟨⟩
      decide
    · simp only [List.getLast?_append, List.getLast?_singleton, Option.some_or]
      rintro c ⟨⟩
      decide
  have hcons : ∃ text, sizedContentsLine context = ' ' :: ' ' :: text := ⟨_, rfl⟩
  obtain ⟨text, htext⟩ := hcons
  rw [htext] at hstrip ⊢
  unfold parseLine
  rw [if_neg (blank_not_thread _)]
  simp only [if_true, @frameHeader_of_not_digit ' ' (by decide), hstrip, List.prefix_append]

/-- In the block of a stack the convertor needs a frame. -/
theorem parseLine_noFrame {c : Char} (hc : c ≠ 'T') (line : List Char)
    (threads : List ConvertorThread) (id : ℕ) (crashed : Bool) :
    parseLine ⟨.stack, threads ++ [⟨id, crashed, []⟩]⟩ (c :: line) = none := by
  have hnone (change : ConvertorFrame → Option ConvertorFrame) :
      onLastFrame change (threads ++ [⟨id, crashed, []⟩]) = none := by
    rw [onLastFrame, onLast_concat]
    rfl
  have hheader : ¬"Thread".toList <+: c :: line := by
    rintro ⟨rest, hrest⟩
    exact hc (List.cons.inj hrest).1.symm
  rw [parseLine, if_neg hheader]
  dsimp only
  split
  · rfl
  · simp only [hnone, Option.map_none, ite_self]

/-- The line in front of a stack is one line. -/
theorem isLine_sizedContentsLine {context : Option MinidumpContext} :
    IsLine '\n' (sizedContentsLine context) := by
  have hend : ")\n".toList = [')'] ++ ['\n'] := by decide
  have hbase : baseBehind context = 10 ∨ baseBehind context = 16 := by
    unfold baseBehind
    split
    · split <;> simp
    · simp
  have hsize : '\n' ∉ Nat.toDigits (baseBehind context) (fpOf context - spOf context).toNat := by
    apply NumberText.newline_not_mem_toDigits <;> omega
  unfold sizedContentsLine
  generalize Nat.toDigits (baseBehind context) (fpOf context - spOf context).toNat = size at hsize ⊢
  refine ⟨List.replicate 5 ' ' ++ ("Stack contents: (".toList ++ (size ++ [')'])), ?_, ?_⟩
  · simp [hsize]
  · rw [hend]
    simp only [List.append_assoc]

/-- What follows the first line of a stack begins with no header. -/
theorem exists_stackRows_cons (context : Option MinidumpContext) (buffer : Option (List UInt8))
    (rest : List Char) : ∃ c text, c ≠ 'T' ∧
      (buffer.elim [] (stackRows 5 (spOf context))).flatten ++ '\n' :: rest = c :: text := by
  rcases buffer with _ | bytes
  · exact ⟨'\n', rest, by decide, rfl⟩
  · by_cases hbytes : bytes = []
    · subst hbytes
      refine ⟨'\n', rest, by decide, ?_⟩
      rw [Option.elim_some, stackRows, dif_pos rfl]
      rfl
    · rw [Option.elim_some, stackRows_of_ne_nil _ _ hbytes]
      exact ⟨' ', _, by decide, rfl⟩

/-- A thread is read without frames. If its stack is printed, it is not read. -/
theorem run_threadText (id : ℕ) (crashed : Bool) (context : Option MinidumpContext)
    (buffer : Option (List UInt8)) (rest : List Char) (st : ParserState) :
    (splitLines '\n' (threadText id crashed context buffer ++ rest)).foldlM parseLine st =
      if ShowsStack context then none
      else (splitLines '\n' rest).foldlM parseLine
        ⟨.thread, st.threads ++ [⟨id, crashed, []⟩]⟩ := by
  have hheader : parseLine st (threadLine id crashed) =
      some ⟨.thread, st.threads ++ [⟨id, crashed, []⟩]⟩ := by
    have hstarts : StartsThread (threadLine id crashed) := List.prefix_append _ _
    rw [parseLine_startsThread hstarts, threadHeader_threadLine, Option.map_some]
  have hregisters := (idleText_registersText context).append .newline
  have htext (tail : List Char) : threadLine id crashed ++ (registersText context ++ '\n' :: tail) =
      threadLine id crashed ++ ((registersText context ++ ['\n']) ++ tail) := by
    rw [List.append_assoc, List.singleton_append]
  rw [threadText, htext, List.append_assoc, List.append_assoc,
    (isLine_threadLine id crashed).splitLines_append, List.foldlM_cons, hheader]
  simp only [Option.bind_eq_bind, Option.bind_some]
  rw [run_idleText hregisters _ (Or.inr rfl)]
  by_cases hshows : ShowsStack context
  · obtain ⟨c, text, hc, hrows⟩ := exists_stackRows_cons context buffer rest
    obtain ⟨line, lines, hlines⟩ := Words.exists_splitLines_cons '\n' c text
    have hstack : (stackLines context buffer).flatten ++ ['\n'] ++ rest =
        sizedContentsLine context ++ c :: text := by
      rw [← hrows, stackLines, List.flatten_cons]
      simp only [List.append_assoc, List.singleton_append]
    rw [if_pos hshows, if_pos hshows, hstack, isLine_sizedContentsLine.splitLines_append, hlines,
      List.foldlM_cons, parseLine_sizedContentsLine]
    simp only [Option.bind_eq_bind, Option.bind_some, List.foldlM_cons, parseLine_noFrame hc,
      Option.bind_none]
  · have hblank : IdleText
        ((if fpOf context ≠ 0 ∧ spOf context ≠ 0 then ['\n'] else []) ++ ['\n']) := by
      split
      · exact IdleText.newline.append .newline
      · exact IdleText.nil.append .newline
    rw [if_neg hshows, if_neg hshows, run_idleText hblank _ (Or.inr rfl)]

/-- Reading memory does not change the contexts. -/
theorem Minidump.getContext_stackBuffer (m : Minidump) (context : Option MinidumpContext) (id : ℕ) :
    (m.stackBuffer context).2.getContext id = m.getContext id := by
  unfold stackBuffer
  split <;> rfl

/-- What the convertor makes of a thread that is shown without its stack. -/
def shownThread (t : MDRawThread × Bool) : ConvertorThread :=
  ⟨MDRawThread.threadId t.1, t.2, []⟩

/-- Threads are read without frames, up to the first stack. Induction on the threads. -/
theorem run_dumpEach (shown : List (MDRawThread × Bool)) (m : Minidump) (rest : List Char)
    (st : ParserState) :
    (splitLines '\n' ((dumpEach shown m).1 ++ rest)).foldlM parseLine st =
      if ∃ t ∈ shown, ShowsStack (m.getContext (MDRawThread.threadId t.1)) then none
      else (splitLines '\n' rest).foldlM parseLine
        ⟨if shown = [] then st.block else .thread, st.threads ++ shown.map shownThread⟩ := by
  induction shown generalizing m st with
  | nil => simp [dumpEach]
  | cons t shown ih =>
    obtain ⟨thread, crashed⟩ := t
    let context := m.getContext (MDRawThread.threadId thread)
    have hdump : (dumpEach ((thread, crashed) :: shown) m).1 =
        threadText thread.threadId crashed context (m.stackBuffer context).1 ++
          (dumpEach shown (m.stackBuffer context).2).1 := by
      simp only [dumpEach, m.dumpThread_eq, context]
    have hrest := ih (m.stackBuffer context).2
      ⟨.thread, st.threads ++ [shownThread (thread, crashed)]⟩
    simp only [Minidump.getContext_stackBuffer] at hrest
    rw [hdump, List.append_assoc, run_threadText]
    by_cases hshows : ShowsStack context
    · rw [if_pos hshows, if_pos ⟨_, List.mem_cons_self .., hshows⟩]
    · have hsame : (∃ t ∈ (thread, crashed) :: shown,
          ShowsStack (m.getContext (MDRawThread.threadId t.1))) ↔
            ∃ t ∈ shown, ShowsStack (m.getContext (MDRawThread.threadId t.1)) := by
        simp only [List.mem_cons, exists_eq_or_imp]
        exact or_iff_right hshows
      simp only [if_neg hshows, hsame, List.map_cons, reduceCtorEq, if_false]
      refine hrest.trans ?_
      simp only [ite_self, List.append_assoc, List.singleton_append]

/-- What the convertor reads from a dump of minidump_dump, with the text behind the threads. -/
def convertedDump (m : Minidump) (rest : List Char) : Option (List ConvertorThread) :=
  parseMinidumpTxtFile
    (splitLines '\n' (m.dumpHead ++ ((dumpEach m.shownThreads m).1 ++ rest)))

/-- The line behind the threads. -/
def modulesLine : TextLine := "Loaded modules:\n".toList

theorem idleText_modulesLine : IdleText modulesLine := by
  refine ⟨[modulesLine], by simp, ?_⟩
  rw [List.forall_mem_singleton]
  refine ⟨⟨"Loaded modules:".toList, ?_, ?_⟩, ?_, ?_, ?_, ?_⟩ <;> decide

/-- A minidump of the thread that crashed. -/
def oneThread (context : Option MinidumpContext) : Minidump :=
  { Minidump.ofFile [] with threads := [RawObject.zero 48], contexts := fun _ => context }

end DwarfExpr
