import Mathlib.Data.List.Nodup
import Mathlib.Data.List.Perm.Subperm
import DwarfExpr.ContextFileRoundTrip
import DwarfExpr.Dwarf2line
import DwarfExpr.MinidumpText

/-!
# Registers of a text dump

A text dump prints the registers of a frame by name, any number on a line, and those it
does not know it leaves out. The parser drops the names, so a register is known by its
position from there on: in the context file, and for the register provider of `dwarf2line`.
-/

namespace DwarfExpr

open NumberText (ofText toHex)
open Words (words)

/-- A register of a target, with its DWARF number. -/
structure TargetRegister where
  name : List Char
  number : ℕ
  deriving DecidableEq, Repr

/-- The registers of a target in the order in which they are printed, and the number of
digits of a value. -/
structure RegisterTarget where
  registers : List TargetRegister
  digits : ℕ
  named : ∀ r ∈ registers, r.name ≠ [] ∧ ∀ c ∈ r.name, c.isAlphanum = true
  distinct : (registers.map TargetRegister.number).Nodup
  few : registers.length < 2 ^ 31
  digits_ne_zero : digits ≠ 0
  digits_le : digits ≤ 16

/-- A register as it is printed, behind some blanks. -/
structure PrintedRegister where
  register : TargetRegister
  value : ℕ
  indent : ℕ
  deriving DecidableEq, Repr

/-- The text of a printed register. -/
def PrintedRegister.text (digits : ℕ) (r : PrintedRegister) : List Char :=
  ' ' :: (List.replicate r.indent ' ' ++ (r.register.name ++
    ' ' :: '=' :: ' ' :: '0' :: 'x' :: toHex digits r.value))

/-- A line of registers. -/
def registerLine (digits : ℕ) (line : List PrintedRegister) : TextLine :=
  line.flatMap (PrintedRegister.text digits) ++ ['\n']

/-- A printed register of a target. -/
structure PrintedRegister.Of (target : RegisterTarget) (r : PrintedRegister) : Prop where
  mem : r.register ∈ target.registers
  fits : r.value < 16 ^ target.digits

/-- The value of a printed register, as a token. -/
def PrintedRegister.valueToken (digits : ℕ) (r : PrintedRegister) : List Char :=
  '0' :: 'x' :: toHex digits r.value

/-- The tokens of a printed register at the end of a line, or in front of another one. -/
theorem words_text_append {target : RegisterTarget} {r : PrintedRegister} (hr : r.Of target)
    {rest : List Char} (hrest : rest = [] ∨ ∃ u, rest = ' ' :: u) :
    words ' ' (r.text target.digits ++ rest) =
      r.register.name :: ['='] :: r.valueToken target.digits :: words ' ' rest := by
  obtain ⟨hname, halnum⟩ := target.named _ hr.mem
  have hname' : ' ' ∉ r.register.name := fun h => absurd (halnum _ h) (by decide)
  have hvalue : ' ' ∉ r.valueToken target.digits := by
    simp only [PrintedRegister.valueToken, List.mem_cons, not_or]
    exact ⟨by decide, by decide, NumberText.blank_not_mem_toHex _ _⟩
  have htext : r.text target.digits ++ rest = ' ' :: (List.replicate r.indent ' ' ++
      (r.register.name ++ ' ' :: (['='] ++ ' ' :: (r.valueToken target.digits ++ rest)))) := by
    simp [PrintedRegister.text, PrintedRegister.valueToken]
  rw [htext, Words.words_cons_self, Words.words_replicate_append,
    Words.words_word_append hname' hname, Words.words_word_append (by decide) (by decide)]
  rcases hrest with rfl | ⟨u, rfl⟩
  · rw [List.append_nil, Words.words_eq_singleton hvalue (by simp [PrintedRegister.valueToken]),
      Words.words_nil]
  · rw [Words.words_word_append hvalue (by simp [PrintedRegister.valueToken]),
      Words.words_cons_self]

/-- The tokens of a line of registers. Induction on the line. -/
theorem words_line {target : RegisterTarget} {line : List PrintedRegister}
    (hline : ∀ r ∈ line, r.Of target) :
    words ' ' (line.flatMap (PrintedRegister.text target.digits)) =
      line.flatMap fun r => [r.register.name, ['='], r.valueToken target.digits] := by
  induction line with
  | nil => simp
  | cons r line ih =>
    obtain ⟨hr, hmore⟩ := List.forall_mem_cons.mp hline
    rw [List.flatMap_cons, words_text_append hr, ih hmore]
    · rfl
    · cases line with
      | nil => exact Or.inl rfl
      | cons next line => exact Or.inr ⟨_, rfl⟩

/-- A letter or digit is no space. -/
theorem isSpace_of_isAlphanum {c : Char} (hc : c.isAlphanum = true) : isSpace c = false := by
  have hspaces : ∀ n ∈ [0x09, 0x0a, 0x0b, 0x0c, 0x0d, 0x20, 0x85, 0xa0, 0x1680, 0x2000, 0x2001,
      0x2002, 0x2003, 0x2004, 0x2005, 0x2006, 0x2007, 0x2008, 0x2009, 0x200a, 0x2028, 0x2029,
      0x202f, 0x205f, 0x3000] ++ [0x1c, 0x1d, 0x1e, 0x1f], (Char.ofNat n).isAlphanum = false := by
    decide
  rw [Bool.eq_false_iff]
  intro hspace
  rw [isSpace, NumberText.isBlank, Bool.or_eq_true, decide_eq_true_eq, decide_eq_true_eq] at hspace
  have hno := hspaces c.toNat (List.mem_append.mpr hspace)
  rw [Char.ofNat_toNat, hc] at hno
  exact absurd hno (by decide)

/-- A line of registers ends with a digit. -/
theorem getLast?_flatMap_text {digits : ℕ} (hdigits : digits ≠ 0) {line : List PrintedRegister}
    {c : Char} (hc : c ∈ (line.flatMap (PrintedRegister.text digits)).getLast?) :
    isSpace c = false := by
  have hspace : ∀ d : Fin 16, isSpace (Nat.digitChar d) = false := by decide
  rcases List.eq_nil_or_concat line with rfl | ⟨front, r, rfl⟩
  · cases hc
  · obtain ⟨t, ht⟩ : ∃ t, r.text digits = t ++ toHex digits r.value :=
      ⟨' ' :: (List.replicate r.indent ' ' ++ (r.register.name ++ [' ', '=', ' ', '0', 'x'])),
        by simp [PrintedRegister.text]⟩
    have hne := NumberText.toHex_ne_nil hdigits r.value
    rw [List.concat_eq_append, List.flatMap_append, List.flatMap_singleton, ht, ← List.append_assoc,
      List.getLast?_append_of_ne_nil _ hne] at hc
    obtain ⟨d, rfl⟩ := NumberText.exists_of_mem_toHex (List.mem_of_mem_getLast? hc)
    exact hspace d

/-- A line of registers is a number of blanks and a text without spaces at its ends. -/
theorem exists_flatMap_text {target : RegisterTarget} {line : List PrintedRegister}
    (hne : line ≠ []) (hline : ∀ r ∈ line, r.Of target) :
    ∃ n text, line.flatMap (PrintedRegister.text target.digits) =
        List.replicate n ' ' ++ text ∧ (∀ c ∈ text.head?, isSpace c = false) ∧
      ∀ c ∈ text.getLast?, isSpace c = false := by
  have hlast {c : Char} := @getLast?_flatMap_text target.digits target.digits_ne_zero line c
  cases line with
  | nil => exact absurd rfl hne
  | cons r line =>
    obtain ⟨hname, halnum⟩ := target.named _ (hline r (List.mem_cons_self ..)).mem
    cases hfirst : r.register.name with
    | nil => exact absurd hfirst hname
    | cons c name =>
      obtain ⟨text, htext⟩ : ∃ text, (r :: line).flatMap (PrintedRegister.text target.digits) =
          List.replicate (r.indent + 1) ' ' ++ c :: text := by
        rw [List.flatMap_cons, PrintedRegister.text, hfirst, List.replicate_succ]
        simp only [List.cons_append, List.append_assoc]
        exact ⟨_, rfl⟩
      rw [htext, List.getLast?_append_of_ne_nil _ (List.cons_ne_nil _ _)] at hlast
      refine ⟨r.indent + 1, c :: text, htext, ?_, fun _ => hlast⟩
      rintro d ⟨⟩
      exact isSpace_of_isAlphanum (halnum _ (hfirst ▸ List.mem_cons_self ..))

/-- The tokens of a line of registers that is stripped. -/
theorem words_strip_registerLine {target : RegisterTarget} {line : List PrintedRegister}
    (hne : line ≠ []) (hline : ∀ r ∈ line, r.Of target) :
    words ' ' (NumberText.strip isSpace (registerLine target.digits line)) =
      line.flatMap fun r => [r.register.name, ['='], r.valueToken target.digits] := by
  obtain ⟨n, text, htext, hhead, hlast⟩ := exists_flatMap_text hne hline
  have hnewline : ∀ c ∈ ['\n'], isSpace c = true := by
    intro c hc
    rw [List.mem_singleton.mp hc]
    decide
  rw [← words_line hline, registerLine, htext, List.append_assoc,
    NumberText.strip_append (fun c hc => isSpace_of_mem_blanks hc) hnewline hhead hlast,
    Words.words_replicate_append]

/-- The values of a line are its tokens with an odd index, since the equality signs are left
out. Induction on the line. -/
theorem oddTokens_tokenizer {target : RegisterTarget} {line : List PrintedRegister}
    (hne : line ≠ []) (hline : ∀ r ∈ line, r.Of target) :
    oddTokens (tokenizer (NumberText.strip isSpace (registerLine target.digits line))
      [[' '], ['=']]) = line.map (PrintedRegister.valueToken target.digits) := by
  rw [tokenizer, words_strip_registerLine hne hline]
  clear hne
  induction line with
  | nil => rfl
  | cons r line ih =>
    obtain ⟨hr, hmore⟩ := List.forall_mem_cons.mp hline
    obtain ⟨-, halnum⟩ := target.named _ hr.mem
    have hname : r.register.name ∉ [[' '], ['=']] := by
      intro hmem
      simp only [List.mem_cons, List.not_mem_nil, or_false] at hmem
      rcases hmem with hmem | hmem <;> rw [hmem] at halnum <;>
        exact absurd (halnum _ (List.mem_cons_self ..)) (by decide)
    have hvalue : r.valueToken target.digits ∉ [[' '], ['=']] := by
      simp [PrintedRegister.valueToken]
    rw [List.flatMap_cons, List.filter_append, List.filter_cons_of_pos (by simpa using hname),
      List.filter_cons_of_neg (by simp), List.filter_cons_of_pos (by simpa using hvalue),
      List.filter_nil, List.map_cons]
    exact congrArg _ (ih hmore)

/-- A printed value is read back. -/
theorem hexint_valueToken {target : RegisterTarget} {r : PrintedRegister} (hr : r.Of target) :
    hexint (r.valueToken target.digits) (-1) = (r.value : ℤ) := by
  rw [hexint, PrintedRegister.valueToken,
    NumberText.ofText_prefix_toHex target.digits_ne_zero hr.fits, Option.getD_some]

/-- The state of the parser in the registers of the first frame of a first thread. -/
def inRegisters (thread : ConvertorThread) (frame : ConvertorFrame) : ParserState :=
  ⟨.register, [{ thread with frames := [frame] }]⟩

/-- A line of registers appends their values to the registers of the frame. -/
theorem parseLine_registerLine {target : RegisterTarget} {line : List PrintedRegister}
    (hne : line ≠ []) (hline : ∀ r ∈ line, r.Of target) (thread : ConvertorThread)
    (frame : ConvertorFrame) :
    parseLine (inRegisters thread frame) (registerLine target.digits line) =
      some (inRegisters thread
        { frame with regs := frame.regs ++ line.map fun r => (r.value : ℤ) }) := by
  have hfirst : ∃ text, registerLine target.digits line = ' ' :: text ∧ '=' ∈ text := by
    cases line with
    | nil => exact absurd rfl hne
    | cons r line => exact ⟨_, rfl, by simp⟩
  obtain ⟨text, htext, hequals⟩ := hfirst
  have hthread : ¬"Thread".toList <+: registerLine target.digits line := by
    rw [htext]
    exact blank_not_thread text
  have hvalues : (line.map (PrintedRegister.valueToken target.digits)).map (hexint · (-1)) =
      line.map fun r => (r.value : ℤ) := by
    rw [List.map_map]
    exact List.map_congr_left fun r hr => hexint_valueToken (hline r hr)
  have hlast := onLastFrame_concat
    (fun f => some { f with regs := f.regs ++ line.map fun r => (r.value : ℤ) }) []
    { thread with frames := [] } frame
  have hsome : line.map (PrintedRegister.valueToken target.digits) ≠ [] := by
    rwa [Ne, List.map_eq_nil_iff]
  unfold parseLine
  rw [if_neg hthread]
  simp only [inRegisters, oddTokens_tokenizer hne hline]
  rw [if_pos (by rw [htext]; exact List.mem_cons_of_mem _ hequals)]
  cases htokens : line.map (PrintedRegister.valueToken target.digits) with
  | nil => exact absurd htokens hsome
  | cons token tokens =>
    rw [← htokens, hvalues]
    simp only [List.nil_append] at hlast
    simp only [hlast, Option.map_some]

/-- The lines of a dump of registers append the values of all of them. Induction on the
lines. -/
theorem run_registerLines {target : RegisterTarget} {printed : List (List PrintedRegister)}
    (hprinted : ∀ line ∈ printed, line ≠ [] ∧ ∀ r ∈ line, r.Of target) (thread : ConvertorThread)
    (frame : ConvertorFrame) :
    (printed.map (registerLine target.digits)).foldlM parseLine (inRegisters thread frame) =
      some (inRegisters thread
        { frame with regs := frame.regs ++ printed.flatten.map fun r => (r.value : ℤ) }) := by
  induction printed generalizing frame with
  | nil => simp
  | cons line printed ih =>
    obtain ⟨⟨hne, hline⟩, hmore⟩ := List.forall_mem_cons.mp hprinted
    rw [List.map_cons, List.foldlM_cons, parseLine_registerLine hne hline, Option.bind_eq_bind,
      Option.bind_some, ih hmore]
    simp only [List.flatten_cons, List.map_append, List.append_assoc]

/-- An entry is changed: it is the only one, or the first one stays. -/
theorem onLast_cons_cases {α : Type} {change : α → Option α} {x : α} {xs ys : List α}
    (h : onLast change (x :: xs) = some ys) :
    (xs = [] ∧ ∃ y, change x = some y ∧ ys = [y]) ∨
      ∃ ys', ys = x :: ys' ∧ ys' ≠ [] ∧ xs ≠ [] := by
  obtain ⟨front, last, y, hxs, hy, rfl⟩ := onLast_cases h
  cases front with
  | nil =>
    obtain ⟨rfl, rfl⟩ := List.cons.inj hxs
    exact Or.inl ⟨rfl, y, hy, rfl⟩
  | cons first front =>
    obtain ⟨rfl, rfl⟩ := List.cons.inj hxs
    exact Or.inr ⟨front ++ [y], rfl, by simp, by simp⟩

/-- The first frame has the given registers, and it is not the one to which a line of
registers would append. -/
def Sealed (regs : List ℤ) (st : ParserState) : Prop :=
  ∃ (thread : ConvertorThread) (threads : List ConvertorThread) (frame : ConvertorFrame)
      (frames : List ConvertorFrame),
    st.threads = { thread with frames := frame :: frames } :: threads ∧ frame.regs = regs ∧
      (st.block = .register → threads ≠ [] ∨ frames ≠ [])

/-- Changing the last frame leaves a sealed first frame as it is, or changes no registers. -/
theorem sealed_onLastFrame {regs : List ℤ} {block block' : ParserBlock}
    {threads threads' : List ConvertorThread} {change : ConvertorFrame → Option ConvertorFrame}
    (hsealed : Sealed regs ⟨block, threads⟩)
    (hchange : onLastFrame change threads = some threads')
    (hblock : block = .register ∨
      block' ≠ .register ∧ ∀ frame frame', change frame = some frame' → frame'.regs = frame.regs) :
    Sealed regs ⟨block', threads'⟩ := by
  obtain ⟨thread, others, frame, frames, rfl, hregs, hother⟩ := hsealed
  rcases onLast_cons_cases hchange with ⟨rfl, t, ht, rfl⟩ | ⟨others', rfl, hothers', -⟩
  · obtain ⟨fs, hfs, rfl⟩ := Option.map_eq_some_iff.mp ht
    rcases onLast_cons_cases hfs with ⟨rfl, frame', hframe', rfl⟩ | ⟨frames', rfl, hframes', -⟩
    · rcases hblock with hblock | ⟨hblock', hkeeps⟩
      · exact absurd (hother hblock) (by simp)
      · exact ⟨thread, [], frame', [], rfl, (hkeeps _ _ hframe').trans hregs,
          fun h => absurd h hblock'⟩
    · exact ⟨thread, [], frame, frames', rfl, hregs, fun _ => Or.inr hframes'⟩
  · exact ⟨thread, others', frame, frames, rfl, hregs, fun _ => Or.inl hothers'⟩

/-- A sealed first frame stays so, whatever the line. -/
theorem parseLine_sealed {regs : List ℤ} {st st' : ParserState} {line : TextLine}
    (hsealed : Sealed regs st) (hline : parseLine st line = some st') : Sealed regs st' := by
  have hcases := parseLine_cases hline
  obtain ⟨thread, threads, frame, frames, hthreads, hregs, hother⟩ := id hsealed
  rcases hcases with ⟨new, rfl⟩ | ⟨new, threads', -, rfl, hadd⟩ |
    ⟨change, threads', rfl, hchange, hblock⟩ | ⟨hsame, hstays⟩
  · exact ⟨thread, threads ++ [new], frame, frames, by rw [hthreads, List.cons_append], hregs,
      fun h => by cases h⟩
  · rw [hthreads] at hadd
    rcases onLast_cons_cases hadd with ⟨rfl, t, ht, rfl⟩ | ⟨others, rfl, hothers, -⟩
    · cases ht
      exact ⟨thread, [], frame, frames ++ [new], rfl, hregs, fun _ => Or.inr (by simp)⟩
    · exact ⟨thread, others, frame, frames, rfl, hregs, fun _ => Or.inl hothers⟩
  · refine sealed_onLastFrame hsealed hchange (hblock.imp_right fun ⟨hstack, hkeeps⟩ => ?_)
    rw [hstack]
    exact ⟨by decide, hkeeps⟩
  · exact ⟨thread, threads, frame, frames, hsame.trans hthreads, hregs, fun h => hother (hstays h)⟩

/-- Lines never change the registers of a sealed first frame. Induction on the lines. -/
theorem run_sealed {regs : List ℤ} {lines : List TextLine} {st st' : ParserState}
    (hsealed : Sealed regs st) (hrun : lines.foldlM parseLine st = some st') : Sealed regs st' := by
  induction lines generalizing st with
  | nil =>
    cases hrun
    exact hsealed
  | cons line lines ih =>
    rw [List.foldlM_cons] at hrun
    obtain ⟨next, hline, hrest⟩ := Option.bind_eq_some_iff.mp hrun
    exact ih (parseLine_sealed hsealed hline) hrest

/-- Behind the registers of the first frame, a line without equality sign seals it. -/
theorem run_inRegisters {thread : ConvertorThread} {frame : ConvertorFrame}
    {rest : List TextLine} {st : ParserState} (hrest : ∀ line ∈ rest.head?, '=' ∉ line)
    (hrun : rest.foldlM parseLine (inRegisters thread frame) = some st) :
    ∃ (first : ConvertorThread) (threads : List ConvertorThread) (found : ConvertorFrame)
      (frames : List ConvertorFrame),
      st.threads = { first with frames := found :: frames } :: threads ∧
        found.regs = frame.regs := by
  cases rest with
  | nil =>
    cases hrun
    exact ⟨thread, [], frame, [], rfl, rfl⟩
  | cons line rest =>
    rw [List.foldlM_cons] at hrun
    obtain ⟨next, hline, hrun⟩ := Option.bind_eq_some_iff.mp hrun
    have hnext : Sealed frame.regs next := by
      unfold parseLine at hline
      split at hline
      · obtain ⟨new, -, rfl⟩ := Option.map_eq_some_iff.mp hline
        exact ⟨thread, [new], frame, [], rfl, rfl, fun h => by cases h⟩
      · simp only [inRegisters, if_neg (hrest line rfl)] at hline
        cases hline
        exact ⟨thread, [], frame, [], rfl, rfl, fun h => by cases h⟩
    obtain ⟨first, threads, found, frames, hthreads, hregs, -⟩ := run_sealed hnext hrun
    exact ⟨first, threads, found, frames, hthreads, hregs⟩

/-- Without threads in the file there is no first frame. -/
theorem getFirstThreadFrame_of_limit_zero {threads : List ConvertorThread} {image : List UInt8}
    (hwrite : writeContextFile threads 0 = some image) {memory : ℕ → ℕ → FrameMemory}
    {ctx ctx' : DwarfContext} (hctx : ctx.threads = [])
    (hload : loadDwarfContextFile memory (.ofImage image) ctx = some (true, ctx')) :
    getFirstThreadFrame (some ctx') = none := by
  obtain ⟨header, file, hsize, -, hrun⟩ := loadDwarfContextFile_of_written hwrite memory hctx
  rw [hrun] at hload
  obtain ⟨r, -, hctx'⟩ := Option.map_eq_some_iff.mp hload
  cases hctx'
  have hnone : ¬0 < DwarfContextHeader.threadsSize header := by
    rw [hsize]
    simp [limitThreads]
  rw [getFirstThreadFrame, if_neg hnone]

/-- The first frame of a loaded context is the first one of the text dump. -/
theorem getFirstThreadFrame_of_written {thread : ConvertorThread} {threads : List ConvertorThread}
    {frame : ConvertorFrame} {frames : List ConvertorFrame} {limit : ℤ} (hlimit : limit ≠ 0)
    {image : List UInt8}
    (hwrite : writeContextFile ({ thread with frames := frame :: frames } :: threads) limit =
      some image)
    {memory : ℕ → ℕ → FrameMemory} {ctx ctx' : DwarfContext} (hctx : ctx.threads = [])
    (hload : loadDwarfContextFile memory (.ofImage image) ctx = some (true, ctx')) :
    frame.Fits ∧ ∃ frameFunc, getFirstThreadFrame (some ctx') = some (frame.loaded frameFunc) := by
  obtain ⟨header, file, hsize, hfile, hrun⟩ := loadDwarfContextFile_of_written hwrite memory hctx
  obtain ⟨⟨hlow, -, hfits⟩, -⟩ := writeContextFile_eq_some_iff.mp hwrite
  obtain ⟨more, hmore⟩ : ∃ more,
      limitThreads ({ thread with frames := frame :: frames } :: threads) limit =
        { thread with frames := frame :: frames } :: more := by
    unfold limitThreads
    split
    · exact ⟨threads, rfl⟩
    · obtain ⟨n, hn⟩ : ∃ n, limit.toNat = n + 1 := ⟨limit.toNat - 1, by omega⟩
      rw [hn, List.take_succ_cons]
      exact ⟨_, rfl⟩
  rw [hmore] at hsize hfile hrun hfits
  have hthread := hfits _ (List.mem_cons_self ..)
  have hframe := hthread.frames _ (List.mem_cons_self ..)
  refine ⟨hframe, ?_⟩
  rw [List.flatMap_cons] at hfile
  obtain ⟨file₁, hfile₁, hreadThread⟩ := @readThread_ahead (memory 0) _ _ _ hthread hfile
  rw [List.flatMap_cons, List.append_assoc] at hfile₁
  obtain ⟨file₂, -, hreadFrame⟩ := @readFrame_ahead (memory 0 0) _ _ _ hframe hfile₁
  rw [hrun] at hload
  obtain ⟨⟨out, file'⟩, hthreads, hctx'⟩ := Option.map_eq_some_iff.mp hload
  cases hctx'
  rw [List.length_cons, List.replicate_succ, readThreads_cons_eq_some_iff] at hthreads
  obtain ⟨loaded, _, others, hfirst, -, rfl⟩ := hthreads
  rw [hreadThread] at hfirst
  obtain ⟨⟨loadedFrames, _⟩, hframes, hheader⟩ := Option.map_eq_some_iff.mp hfirst
  cases hheader
  rw [List.length_cons, List.replicate_succ, readFrames_cons_eq_some_iff] at hframes
  obtain ⟨first, _, more', hfirstFrame, -, rfl⟩ := hframes
  rw [hreadFrame] at hfirstFrame
  obtain ⟨frameFunc, -, hloaded⟩ := Option.map_eq_some_iff.mp hfirstFrame
  cases hloaded
  obtain ⟨-, -, hframesSize⟩ := ConvertorThread.header_equals hthread
  refine ⟨frameFunc, ?_⟩
  rw [getFirstThreadFrame, if_pos (by rw [hsize]; exact Nat.succ_pos _)]
  simp only [List.getElem?_cons_zero, hframesSize, List.length_cons, Nat.succ_pos, if_true]

/-- The registers printed for a frame: some of those of the target, in their order. -/
structure RegisterDump (target : RegisterTarget) where
  lines : List (List PrintedRegister)
  nonempty : ∀ line ∈ lines, line ≠ []
  fits : ∀ r ∈ lines.flatten, r.value < 16 ^ target.digits
  inOrder : (lines.flatten.map PrintedRegister.register).Sublist target.registers

/-- The printed registers. -/
def RegisterDump.registers {target : RegisterTarget} (dump : RegisterDump target) :
    List PrintedRegister :=
  dump.lines.flatten

/-- The provider answers with the value printed for the register of a number, if there is
one. -/
def RegisterDump.AnsweredBy {target : RegisterTarget} (dump : RegisterDump target)
    (provider : RegisterProvider) : Prop :=
  ∀ k, provider k =
    (dump.registers.find? fun r => (r.register.number : ℤ) = k).map fun r => .ofNat 64 r.value

/-- The numbers of the printed registers are positions, and at the position of a number
stands the value of that register. -/
def RegisterDump.InPlace {target : RegisterTarget} (dump : RegisterDump target) : Prop :=
  (∀ r ∈ dump.registers, r.register.number < dump.registers.length) ∧
    ∀ (i : ℕ) (r : PrintedRegister), dump.registers[i]? = some r →
      ∀ q ∈ dump.registers, q.register.number = i → r.value = q.value

section Dump

variable {target : RegisterTarget} (dump : RegisterDump target)

/-- The printed registers are registers of the target. -/
theorem RegisterDump.of {r : PrintedRegister} (hr : r ∈ dump.registers) : r.Of target :=
  ⟨dump.inOrder.subset (List.mem_map_of_mem hr), dump.fits r hr⟩

/-- No number is printed twice. -/
theorem RegisterDump.nodup : (dump.registers.map fun r => r.register.number).Nodup := by
  have hsublist := dump.inOrder.map TargetRegister.number
  rw [List.map_map] at hsublist
  exact target.distinct.sublist hsublist

/-- The register of a number is found. -/
theorem RegisterDump.find?_number {r : PrintedRegister} (hr : r ∈ dump.registers) :
    (dump.registers.find? fun q => (q.register.number : ℤ) = (r.register.number : ℤ)) =
      some r := by
  cases hfind : dump.registers.find? fun q => (q.register.number : ℤ) = (r.register.number : ℤ) with
  | none => exact absurd (List.find?_eq_none.mp hfind r hr) (by simp)
  | some q =>
    have hq := List.mem_of_find?_eq_some hfind
    have hnumber := List.find?_some hfind
    simp only [decide_eq_true_eq, Int.natCast_inj] at hnumber
    rw [List.inj_on_of_nodup_map dump.nodup hq hr hnumber]

/-- Values that fit the provider are told apart by it. -/
theorem RegisterDump.value_inj {r q : PrintedRegister} (hr : r ∈ dump.registers)
    (hq : q ∈ dump.registers) (h : BitVec.ofNat 64 r.value = BitVec.ofNat 64 q.value) :
    r.value = q.value := by
  have hfits {r : PrintedRegister} (hr : r ∈ dump.registers) : r.value < 2 ^ 64 :=
    calc
      r.value < 16 ^ target.digits := dump.fits r hr
      _ ≤ 16 ^ 16 := Nat.pow_le_pow_right (by decide) target.digits_le
      _ = 2 ^ 64 := by decide
  have hnat := congrArg BitVec.toNat h
  rwa [BitVec.toNat_ofNat, BitVec.toNat_ofNat, Nat.mod_eq_of_lt (hfits hr),
    Nat.mod_eq_of_lt (hfits hq)] at hnat

/-- Every position is a number when every number is a position: no number is printed
twice. -/
theorem RegisterDump.exists_number
    (hpositions : ∀ r ∈ dump.registers, r.register.number < dump.registers.length) {i : ℕ}
    (hi : i < dump.registers.length) : ∃ r ∈ dump.registers, r.register.number = i := by
  have hsubset : (dump.registers.map fun r => r.register.number) ⊆
      List.range dump.registers.length := by
    intro n hn
    obtain ⟨r, hr, rfl⟩ := List.mem_map.mp hn
    exact List.mem_range.mpr (hpositions r hr)
  have hperm := (dump.nodup.subperm hsubset).perm_of_length_le (by simp)
  exact List.mem_map.mp (hperm.mem_iff.mpr (List.mem_range.mpr hi))

/-- A provider that answers with the values by position answers for the numbers exactly
when the registers are in place. -/
theorem RegisterDump.answeredBy_positions_iff {provider : RegisterProvider}
    (hprovider : ∀ k, provider k =
      if 0 ≤ k then dump.registers[k.toNat]?.map fun r => .ofNat 64 r.value else none) :
    dump.AnsweredBy provider ↔ dump.InPlace := by
  have hposition (i : ℕ) : provider i = dump.registers[i]?.map fun r => .ofNat 64 r.value := by
    rw [hprovider, if_pos (Int.natCast_nonneg i), Int.toNat_natCast]
  constructor
  · intro hanswers
    have hnumber {r : PrintedRegister} (hr : r ∈ dump.registers) :
        dump.registers[r.register.number]?.map (fun r => BitVec.ofNat 64 r.value) =
          some (BitVec.ofNat 64 r.value) := by
      rw [← hposition, hanswers, dump.find?_number hr, Option.map_some]
    constructor
    · intro r hr
      obtain ⟨q, hq, -⟩ := Option.map_eq_some_iff.mp (hnumber hr)
      exact (List.getElem?_eq_some_iff.mp hq).1
    · rintro i r hi q hq rfl
      have hsame := hnumber hq
      rw [hi, Option.map_some, Option.some.injEq] at hsame
      exact dump.value_inj (List.mem_of_getElem? hi) hq hsame
  · rintro ⟨hpositions, hvalues⟩ k
    rcases Int.lt_or_le k 0 with hk | hk
    · have hnone : (dump.registers.find? fun r => (r.register.number : ℤ) = k) = none := by
        rw [List.find?_eq_none]
        intro r _
        simp only [decide_eq_true_eq]
        omega
      rw [hprovider, if_neg (by omega), hnone, Option.map_none]
    · obtain ⟨i, rfl⟩ := Int.eq_ofNat_of_zero_le hk
      rcases Nat.lt_or_ge i dump.registers.length with hi | hi
      · obtain ⟨q, hq, rfl⟩ := dump.exists_number hpositions hi
        have hat := List.getElem?_eq_getElem hi
        rw [hposition, dump.find?_number hq, hat, Option.map_some, Option.map_some,
          hvalues _ _ hat q hq rfl]
      · have hnone : (dump.registers.find? fun r => (r.register.number : ℤ) = (i : ℤ)) = none := by
          rw [List.find?_eq_none]
          intro r hr
          have := hpositions r hr
          simp only [decide_eq_true_eq]
          omega
        rw [hposition, hnone, List.getElem?_eq_none hi, Option.map_none]

/-- The provider answers with the registers of the first frame by their position. -/
theorem registerProvider_loaded {context : DwarfContext} {frame : ConvertorFrame}
    {frameFunc : List UInt8} (hfirst : getFirstThreadFrame (some context) =
      some (frame.loaded frameFunc))
    (hregs : frame.regs = dump.registers.map fun r => (r.value : ℤ)) (k : ℤ) :
    registerProvider (some context) k =
      if 0 ≤ k then dump.registers[k.toNat]?.map fun r => .ofNat 64 r.value else none := by
  have hloaded : (frame.loaded frameFunc).regs = dump.registers.map PrintedRegister.value := by
    rw [ConvertorFrame.loaded, hregs, List.map_map]
    rfl
  have hfew : dump.registers.length < 2 ^ 31 := by
    have hlength := dump.inOrder.length_le
    rw [List.length_map] at hlength
    exact Nat.lt_of_le_of_lt hlength target.few
  have hsize : (BitVec.ofNat 32 dump.registers.length).toInt = (dump.registers.length : ℤ) := by
    rw [BitVec.toInt_ofNat']
    exact Int.bmod_eq_of_le (by omega) (by omega)
  simp only [registerProvider, hfirst, hloaded, List.length_map, hsize]
  rcases Int.lt_or_le k 0 with hk | hk
  · rw [if_neg (by omega), if_neg (by omega)]
  · rw [if_pos hk]
    rcases Int.lt_or_le k dump.registers.length with hlt | hge
    · rw [if_pos ⟨hk, hlt⟩, List.getElem?_map, Option.map_map]
      rfl
    · rw [if_neg (by omega), List.getElem?_eq_none (by omega), Option.map_none]

end Dump

/-- Lines up to the registers of the first frame of the first thread. -/
structure RegisterStart where
  lines : List TextLine
  thread : ConvertorThread
  frame : ConvertorFrame
  reads : lines.foldlM parseLine ⟨.info, []⟩ = some (inRegisters thread frame)
  noRegs : frame.regs = []

/-- The text with a dump of registers behind the start, and what follows it. -/
def RegisterStart.text (start : RegisterStart) {target : RegisterTarget}
    (dump : RegisterDump target) (rest : List TextLine) : List TextLine :=
  start.lines ++ (dump.lines.map (registerLine target.digits) ++ rest)

/-- The first frame of the text has the printed values. -/
theorem RegisterStart.parse_text (start : RegisterStart) {target : RegisterTarget}
    (dump : RegisterDump target) {rest : List TextLine} (hrest : ∀ line ∈ rest.head?, '=' ∉ line)
    {threads : List ConvertorThread}
    (hparse : parseMinidumpTxtFile (start.text dump rest) = some threads) :
    ∃ (thread : ConvertorThread) (others : List ConvertorThread) (frame : ConvertorFrame)
      (frames : List ConvertorFrame),
      threads = { thread with frames := frame :: frames } :: others ∧
        frame.regs = dump.registers.map fun r => (r.value : ℤ) := by
  have hlines : ∀ line ∈ dump.lines, line ≠ [] ∧ ∀ r ∈ line, r.Of target := fun line hline =>
    ⟨dump.nonempty line hline, fun r hr => dump.of (List.mem_flatten_of_mem hline hr)⟩
  rw [parseMinidumpTxtFile, text, List.foldlM_append, start.reads, Option.bind_eq_bind,
    Option.bind_some, List.foldlM_append, run_registerLines hlines, start.noRegs, List.nil_append,
    Option.bind_eq_bind, Option.bind_some] at hparse
  obtain ⟨st, hrun, rfl⟩ := Option.map_eq_some_iff.mp hparse
  exact run_inRegisters hrest hrun

/-- After conversion and loading, the provider answers with the printed registers if and
only if they are in place, and the first thread is among those that are converted. -/
theorem RegisterDump.answeredBy_iff {target : RegisterTarget} (dump : RegisterDump target)
    (start : RegisterStart) {rest : List TextLine} (hrest : ∀ line ∈ rest.head?, '=' ∉ line)
    {threads : List ConvertorThread}
    (hparse : parseMinidumpTxtFile (start.text dump rest) = some threads) {limit : ℤ}
    {image : List UInt8} (hwrite : writeContextFile threads limit = some image)
    {memory : ℕ → ℕ → FrameMemory} {ctx ctx' : DwarfContext} (hctx : ctx.threads = [])
    (hload : loadDwarfContextFile memory (.ofImage image) ctx = some (true, ctx')) :
    dump.AnsweredBy (registerProvider (some ctx')) ↔
      (limit = 0 → dump.registers = []) ∧ dump.InPlace := by
  obtain ⟨thread, others, frame, frames, rfl, hregs⟩ := start.parse_text dump hrest hparse
  by_cases hlimit : limit = 0
  · subst hlimit
    have hnone (k : ℤ) : registerProvider (some ctx') k = none := by
      rw [registerProvider, getFirstThreadFrame_of_limit_zero hwrite hctx hload]
    constructor
    · intro hanswers
      have hempty : dump.registers = [] := by
        rw [List.eq_nil_iff_forall_not_mem]
        intro r hr
        have hanswer := hanswers r.register.number
        rw [hnone, dump.find?_number hr] at hanswer
        cases hanswer
      exact ⟨fun _ => hempty, by simp [InPlace, hempty]⟩
    · rintro ⟨hempty, -⟩ k
      rw [hnone, hempty rfl]
      rfl
  · obtain ⟨-, frameFunc, hfirst⟩ := getFirstThreadFrame_of_written hlimit hwrite hctx hload
    rw [dump.answeredBy_positions_iff (registerProvider_loaded dump hfirst hregs)]
    simp only [hlimit, false_imp_iff, true_and]

/-- The registers of x86-64. -/
def x8664 : RegisterTarget where
  registers := [⟨"rax".toList, 0⟩, ⟨"rdx".toList, 1⟩, ⟨"rcx".toList, 2⟩, ⟨"rbx".toList, 3⟩,
    ⟨"rsi".toList, 4⟩, ⟨"rdi".toList, 5⟩, ⟨"rbp".toList, 6⟩, ⟨"rsp".toList, 7⟩, ⟨"r8".toList, 8⟩,
    ⟨"r9".toList, 9⟩, ⟨"r10".toList, 10⟩, ⟨"r11".toList, 11⟩, ⟨"r12".toList, 12⟩,
    ⟨"r13".toList, 13⟩, ⟨"r14".toList, 14⟩, ⟨"r15".toList, 15⟩, ⟨"rip".toList, 16⟩]
  digits := 16
  named := by simp
  distinct := by simp
  few := by decide
  digits_ne_zero := by decide
  digits_le := by decide

/-- The start of a text dump. -/
def mainFrame : RegisterStart where
  lines := ["Thread 0 (crashed)\n".toList, " 0  main\n".toList]
  thread := ⟨0, true, []⟩
  frame := ⟨0, "main", [], 0, []⟩
  reads := by decide
  noRegs := rfl

/-- The line that follows the registers in a text dump. -/
def foundByLine : TextLine := "    Found by: given as instruction pointer in context\n".toList

/-- A dump of the first two registers. -/
def firstTwo : RegisterDump x8664 where
  lines := [[⟨⟨"rax".toList, 0⟩, 0x2a, 3⟩, ⟨⟨"rdx".toList, 1⟩, 0x415400, 2⟩]]
  nonempty := by decide
  fits := by decide
  inOrder := by decide

/-- The two registers are known by their positions. -/
theorem RegisterDump.answeredBy_iff_firstTwo :
    ∃ threads image ctx', parseMinidumpTxtFile (mainFrame.text firstTwo [foundByLine]) =
        some threads ∧ writeContextFile threads (-1) = some image ∧
      loadDwarfContextFile (fun _ _ => heapWith [0, 0, 0, 0, 0]) (.ofImage image)
        ⟨.zero 12, []⟩ = some (true, ctx') ∧
      firstTwo.AnsweredBy (registerProvider (some ctx')) := by
  let threads : List ConvertorThread := [⟨0, true, [⟨0, "main", [0x2a, 0x415400], 0, []⟩]⟩]
  let image := (writeContextFile threads (-1)).getD []
  let ctx' := ((loadDwarfContextFile (fun _ _ => heapWith [0, 0, 0, 0, 0]) (.ofImage image)
    ⟨.zero 12, []⟩).getD (false, ⟨.zero 12, []⟩)).2
  have hparse : parseMinidumpTxtFile (mainFrame.text firstTwo [foundByLine]) = some threads := by
    decide
  have hwrite : writeContextFile threads (-1) = some image := by decide
  have hload : loadDwarfContextFile (fun _ _ => heapWith [0, 0, 0, 0, 0]) (.ofImage image)
      ⟨.zero 12, []⟩ = some (true, ctx') := by decide
  refine ⟨threads, image, ctx', hparse, hwrite, hload, ?_⟩
  refine (answeredBy_iff firstTwo mainFrame (by decide) hparse hwrite rfl hload).mpr
    ⟨by decide, by decide, ?_⟩
  rintro i r hi q hq rfl
  have hnumbers : ∀ q ∈ firstTwo.registers, firstTwo.registers[q.register.number]? = some q := by
    decide
  rw [hnumbers q hq] at hi
  rw [Option.some.inj hi]

/-- A dump of the registers of a caller, which are the frame pointer, the stack pointer and
the instruction pointer. -/
def callerRegisters : RegisterDump x8664 where
  lines := [[⟨⟨"rbp".toList, 6⟩, 0x7fff1b1386b0, 3⟩, ⟨⟨"rsp".toList, 7⟩, 0x7fff1b138690, 2⟩],
    [⟨⟨"rip".toList, 16⟩, 0x402e7e, 3⟩]]
  nonempty := by decide
  fits := by decide
  inOrder := by decide

/-- The value of `rbp` is given out as that of the register 0, which has not been printed. -/
theorem RegisterDump.not_answeredBy_callerRegisters :
    ∃ threads image ctx', parseMinidumpTxtFile (mainFrame.text callerRegisters [foundByLine]) =
        some threads ∧ writeContextFile threads (-1) = some image ∧
      loadDwarfContextFile (fun _ _ => heapWith [0, 0, 0, 0, 0]) (.ofImage image)
        ⟨.zero 12, []⟩ = some (true, ctx') ∧
      ¬callerRegisters.AnsweredBy (registerProvider (some ctx')) := by
  let threads : List ConvertorThread :=
    [⟨0, true, [⟨0, "main", [0x7fff1b1386b0, 0x7fff1b138690, 0x402e7e], 0, []⟩]⟩]
  let image := (writeContextFile threads (-1)).getD []
  let ctx' := ((loadDwarfContextFile (fun _ _ => heapWith [0, 0, 0, 0, 0]) (.ofImage image)
    ⟨.zero 12, []⟩).getD (false, ⟨.zero 12, []⟩)).2
  refine ⟨threads, image, ctx', by decide, by decide, by decide, ?_⟩
  intro hanswers
  have hzero := hanswers 0
  revert hzero
  decide

end DwarfExpr
