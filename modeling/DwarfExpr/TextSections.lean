import DwarfExpr.RegisterDump

/-!
# Thread by thread

A line of a text dump changes nothing but the last thread, and of it nothing but the last
frame. So what stands in front of the header of a thread never matters for what is read
behind it, and a text dump is read by reading the section of each thread on its own.
-/

namespace DwarfExpr

/-- Threads that are put in front of others, with frames in front of those of the first. -/
def putBehind (threads : List ConvertorThread) (frames : List ConvertorFrame) :
    List ConvertorThread → List ConvertorThread
  | [] => threads
  | t :: others => threads ++ { t with frames := frames ++ t.frames } :: others

/-- A state with threads in front, and with frames in front of those of its first thread. -/
def ParserState.behind (threads : List ConvertorThread) (frames : List ConvertorFrame)
    (st : ParserState) : ParserState :=
  { st with threads := putBehind threads frames st.threads }

/-- There is a thread, and a frame of it if there are to be frames in front. -/
def Begun (frames : List ConvertorFrame) (threads : List ConvertorThread) : Prop :=
  ∃ t others, threads = t :: others ∧ (frames = [] ∨ t.frames ≠ [])

/-- Without frames in front, threads are put behind others by appending them. -/
theorem putBehind_nil (before threads : List ConvertorThread) :
    putBehind before [] threads = before ++ threads := by
  cases threads <;> simp [putBehind]

/-- Threads that are added stay behind. -/
theorem putBehind_append {frames : List ConvertorFrame} {threads : List ConvertorThread}
    (hthreads : Begun frames threads) (before more : List ConvertorThread) :
    putBehind before frames (threads ++ more) = putBehind before frames threads ++ more := by
  obtain ⟨t, others, rfl, -⟩ := hthreads
  simp [putBehind]

/-- What is in front of the last entry does not matter for changing it. -/
theorem onLast_append {α : Type} (change : α → Option α) (front : List α) {xs : List α}
    (hxs : xs ≠ []) : onLast change (front ++ xs) = (onLast change xs).map (front ++ ·) := by
  obtain ⟨xs, x, rfl⟩ := (List.eq_nil_or_concat' xs).resolve_left hxs
  rw [← List.append_assoc, onLast_concat, onLast_concat, Option.map_map]
  simp only [Function.comp_def, List.append_assoc]

/-- A change of the last thread for which the frames in front do not matter. -/
theorem onLast_putBehind {change : ConvertorThread → Option ConvertorThread}
    {frames : List ConvertorFrame}
    (hchange : ∀ t : ConvertorThread, frames = [] ∨ t.frames ≠ [] →
      change { t with frames := frames ++ t.frames } =
        (change t).map fun t => { t with frames := frames ++ t.frames })
    {threads : List ConvertorThread} (hthreads : Begun frames threads)
    (before : List ConvertorThread) :
    onLast change (putBehind before frames threads) =
      (onLast change threads).map (putBehind before frames) := by
  obtain ⟨t, others, rfl, hbegun⟩ := hthreads
  rw [putBehind, onLast_append change before (List.cons_ne_nil _ _)]
  rcases List.eq_nil_or_concat' others with rfl | ⟨others, last, rfl⟩
  · have hone := onLast_concat change [] { t with frames := frames ++ t.frames }
    have hone' := onLast_concat change [] t
    rw [List.nil_append] at hone hone'
    rw [hone, hone', hchange t hbegun, Option.map_map, Option.map_map, Option.map_map]
    rfl
  · have hne : others ++ [last] ≠ [] := by simp
    have hmore := onLast_append change [{ t with frames := frames ++ t.frames }] hne
    have hmore' := onLast_append change [t] hne
    rw [List.singleton_append] at hmore hmore'
    rw [hmore, hmore', Option.map_map, Option.map_map]
    rfl

/-- A change of the last frame. -/
theorem onLastFrame_putBehind (change : ConvertorFrame → Option ConvertorFrame)
    {frames : List ConvertorFrame} {threads : List ConvertorThread}
    (hthreads : Begun frames threads) (before : List ConvertorThread) :
    onLastFrame change (putBehind before frames threads) =
      (onLastFrame change threads).map (putBehind before frames) := by
  refine onLast_putBehind (fun t ht => ?_) hthreads before
  rcases ht with rfl | ht
  · simp only [List.nil_append]
    cases onLast change t.frames <;> rfl
  · rw [onLast_append change frames ht, Option.map_map, Option.map_map]
    rfl

/-- What has been read before does not matter for what a line does. -/
theorem parseLine_behind {frames : List ConvertorFrame} {st : ParserState}
    (hst : Begun frames st.threads) (before : List ConvertorThread) (line : TextLine) :
    parseLine (st.behind before frames) line =
      (parseLine st line).map (ParserState.behind before frames) := by
  obtain ⟨block, threads⟩ := st
  have hframe (change : ConvertorFrame → Option ConvertorFrame) :=
    onLastFrame_putBehind change hst before
  unfold parseLine
  by_cases hthread : "Thread".toList <+: line
  · rw [if_pos hthread, if_pos hthread, Option.map_map]
    simp only [Function.comp_def, ParserState.behind, putBehind_append hst]
  rw [if_neg hthread, if_neg hthread]
  cases block with
  | info => rfl
  | thread =>
    cases line with
    | nil => rfl
    | cons c rest =>
      cases hheader : frameHeader (if c = ' ' then rest else c :: rest) with
      | some new =>
        have hadd := @onLast_putBehind (fun t => some { t with frames := t.frames ++ [new] }) frames
          (fun t _ => by simp) threads hst before
        simp only [ParserState.behind, hheader, hadd, Option.map_map]
        rfl
      | none =>
        simp only [ParserState.behind, hheader]
        split <;> rfl
  | register =>
    simp only [ParserState.behind]
    split
    · split
      · rfl
      · rw [hframe, Option.map_map, Option.map_map]
        rfl
    · rfl
  | stack =>
    simp only [ParserState.behind]
    split
    · rfl
    · split <;> rw [hframe, Option.map_map, Option.map_map] <;> rfl

/-- A line takes no thread and no frame away. -/
theorem parseLine_begun {frames : List ConvertorFrame} {st st' : ParserState} {line : TextLine}
    (hst : Begun frames st.threads) (hline : parseLine st line = some st') :
    Begun frames st'.threads := by
  have hcases := parseLine_cases hline
  obtain ⟨t, others, hthreads, hbegun⟩ := hst
  rw [hthreads] at hcases
  rcases hcases with ⟨new, rfl⟩ | ⟨new, threads, -, rfl, hadd⟩ |
    ⟨change, threads, rfl, hchange, -⟩ | ⟨hsame, -⟩
  · exact ⟨t, others ++ [new], rfl, hbegun⟩
  · rcases onLast_cons_cases hadd with ⟨rfl, t', ht', rfl⟩ | ⟨others', rfl, -, -⟩
    · cases ht'
      exact ⟨_, [], rfl, Or.inr (by simp)⟩
    · exact ⟨t, others', rfl, hbegun⟩
  · rcases onLast_cons_cases hchange with ⟨rfl, t', ht', rfl⟩ | ⟨others', rfl, -, -⟩
    · obtain ⟨changed, hchanged, rfl⟩ := Option.map_eq_some_iff.mp ht'
      obtain ⟨front, x, y, -, -, rfl⟩ := onLast_cases hchanged
      exact ⟨_, [], rfl, Or.inr (by simp)⟩
    · exact ⟨t, others', rfl, hbegun⟩
  · exact ⟨t, others, hsame, hbegun⟩

/-- What has been read before does not matter for what lines do. Induction on the lines. -/
theorem run_behind {frames : List ConvertorFrame} {st : ParserState}
    (hst : Begun frames st.threads) (before : List ConvertorThread) (lines : List TextLine) :
    lines.foldlM parseLine (st.behind before frames) =
      (lines.foldlM parseLine st).map (ParserState.behind before frames) := by
  induction lines generalizing st with
  | nil => rfl
  | cons line lines ih =>
    rw [List.foldlM_cons, List.foldlM_cons, parseLine_behind hst]
    cases hline : parseLine st line with
    | none => rfl
    | some st' => exact ih (parseLine_begun hst hline)

/-- A line that starts with `Thread`. -/
abbrev StartsThread (line : TextLine) : Prop := "Thread".toList <+: line

/-- The header of a thread begins one, whatever has been read before. -/
theorem parseLine_startsThread {header : TextLine} (hheader : StartsThread header)
    (st : ParserState) :
    parseLine st header =
      (threadHeader header).map fun thread => ⟨.thread, st.threads ++ [thread]⟩ := by
  unfold parseLine
  rw [if_pos hheader]

/-- A text is read by reading what is in front of the header of a thread, and reading on from
the header as if nothing were in front of it. -/
theorem parseMinidumpTxtFile_append (front : List TextLine) {header : TextLine}
    (hheader : StartsThread header) (rest : List TextLine) :
    parseMinidumpTxtFile (front ++ header :: rest) =
      (parseMinidumpTxtFile front).bind fun before =>
        (parseMinidumpTxtFile (header :: rest)).map (before ++ ·) := by
  simp only [parseMinidumpTxtFile, List.foldlM_append, List.foldlM_cons, Option.bind_eq_bind]
  cases front.foldlM parseLine ⟨.info, []⟩ with
  | none => rfl
  | some st =>
    simp only [Option.bind_some, Option.map_some, parseLine_startsThread hheader]
    cases threadHeader header with
    | none => rfl
    | some thread =>
      have hrun := @run_behind [] ⟨.thread, [thread]⟩ ⟨thread, [], rfl, Or.inl rfl⟩ st.threads rest
      simp only [ParserState.behind, putBehind_nil] at hrun
      have hbehind : ParserState.threads ∘ ParserState.behind st.threads [] =
          (st.threads ++ ·) ∘ ParserState.threads :=
        funext fun st' => putBehind_nil st.threads st'.threads
      simp only [Option.map_some, Option.bind_some, List.nil_append, hrun, Option.map_map, hbehind]

/-- Changing the last entry adds none. -/
theorem onLast_length {α : Type} {change : α → Option α} {xs ys : List α}
    (h : onLast change xs = some ys) : ys.length = xs.length := by
  obtain ⟨front, x, y, rfl, -, rfl⟩ := onLast_cases h
  simp

/-- A line that is no header adds no thread. -/
theorem parseLine_length {st st' : ParserState} {line : TextLine} (hheader : ¬StartsThread line)
    (hline : parseLine st line = some st') : st'.threads.length = st.threads.length := by
  obtain ⟨block, threads⟩ := st
  unfold parseLine at hline
  rw [if_neg hheader] at hline
  rcases block with _ | _ | _ | _ <;> simp only at hline
  · cases hline
    rfl
  · split at hline
    · cases hline
    · split at hline
      · obtain ⟨changed, hadd, rfl⟩ := Option.map_eq_some_iff.mp hline
        exact onLast_length hadd
      · split at hline <;> cases hline <;> rfl
  · split at hline
    · split at hline
      · cases hline
        rfl
      · obtain ⟨changed, hchange, rfl⟩ := Option.map_eq_some_iff.mp hline
        exact onLast_length hchange
    · cases hline
      rfl
  · split at hline
    · cases hline
    · split at hline
      · obtain ⟨changed, hchange, rfl⟩ := Option.map_eq_some_iff.mp hline
        exact onLast_length hchange
      · obtain ⟨-, -, rfl⟩ := Option.map_eq_some_iff.mp hline
        rfl

/-- Lines without a header add no thread. Induction on the lines. -/
theorem run_length {st st' : ParserState} {lines : List TextLine}
    (hlines : ∀ line ∈ lines, ¬StartsThread line) (hrun : lines.foldlM parseLine st = some st') :
    st'.threads.length = st.threads.length := by
  induction lines generalizing st with
  | nil =>
    cases hrun
    rfl
  | cons line lines ih =>
    obtain ⟨hline, hmore⟩ := List.forall_mem_cons.mp hlines
    rw [List.foldlM_cons] at hrun
    obtain ⟨next, hnext, hrest⟩ := Option.bind_eq_some_iff.mp hrun
    exact (ih hmore hrest).trans (parseLine_length hline hnext)

/-- In front of the first header a line means nothing. -/
theorem parseLine_info {line : TextLine} (hline : ¬StartsThread line) :
    parseLine ⟨.info, []⟩ line = some ⟨.info, []⟩ := by
  unfold parseLine
  rw [if_neg hline]

/-- The sections of the threads of a text: each begins with a header. What is in front of the
first one is left out. -/
def threadSections : List TextLine → List (List TextLine)
  | [] => []
  | line :: rest =>
    if StartsThread line then
      (line :: rest.takeWhile (¬StartsThread ·)) :: threadSections rest
    else threadSections rest

/-- The thread that is read from a section on its own. -/
def parseSection (lines : List TextLine) : Option ConvertorThread :=
  (parseMinidumpTxtFile lines).bind List.head?

/-- From a section of one header a single thread is read. -/
theorem parseMinidumpTxtFile_section {header : TextLine} (hheader : StartsThread header)
    {body : List TextLine} (hbody : ∀ line ∈ body, ¬StartsThread line) :
    parseMinidumpTxtFile (header :: body) =
      (parseSection (header :: body)).map fun thread => [thread] := by
  rw [parseSection]
  cases hparse : parseMinidumpTxtFile (header :: body) with
  | none => rfl
  | some threads =>
    rw [parseMinidumpTxtFile, List.foldlM_cons, parseLine_startsThread hheader] at hparse
    obtain ⟨st, hrun, rfl⟩ := Option.map_eq_some_iff.mp hparse
    obtain ⟨first, hfirst, hrest⟩ := Option.bind_eq_some_iff.mp hrun
    obtain ⟨thread, -, rfl⟩ := Option.map_eq_some_iff.mp hfirst
    obtain ⟨t, ht⟩ := List.length_eq_one_iff.mp (run_length hbody hrest)
    rw [ht]
    rfl

/-- A text that begins with a header is read by reading its first section, and then what
begins with the next header. -/
theorem parseMinidumpTxtFile_cons {header : TextLine} (hheader : StartsThread header)
    (rest : List TextLine) :
    parseMinidumpTxtFile (header :: rest) =
      (parseSection (header :: rest.takeWhile (¬StartsThread ·))).bind fun thread =>
        (parseMinidumpTxtFile (rest.dropWhile (¬StartsThread ·))).map (thread :: ·) := by
  have hbody : ∀ line ∈ rest.takeWhile (¬StartsThread ·), ¬StartsThread line := by
    intro line hline
    have hnot := List.mem_takeWhile_imp hline
    exact of_decide_eq_true hnot
  have hsection := parseMinidumpTxtFile_section hheader hbody
  have hsplit := rest.takeWhile_append_dropWhile (p := (¬StartsThread ·))
  cases hnext : rest.dropWhile (¬StartsThread ·) with
  | nil =>
    rw [hnext, List.append_nil] at hsplit
    rw [hsplit] at hsection ⊢
    rw [hsection]
    cases parseSection (header :: rest) <;> rfl
  | cons next more =>
    have hstarts : StartsThread next := by
      have hhead := List.head?_dropWhile_not (fun l => decide (¬StartsThread l)) rest
      rw [hnext, List.head?_cons] at hhead
      simpa using hhead
    rw [hnext] at hsplit
    have happend := parseMinidumpTxtFile_append (header :: rest.takeWhile (¬StartsThread ·))
      hstarts more
    rw [List.cons_append, hsplit, hsection] at happend
    rw [happend]
    cases parseSection (header :: rest.takeWhile (¬StartsThread ·)) <;> rfl

/-- In front of the first header there is no section. Induction on the lines. -/
theorem threadSections_dropWhile (lines : List TextLine) :
    threadSections (lines.dropWhile (¬StartsThread ·)) = threadSections lines := by
  induction lines with
  | nil => rfl
  | cons line rest ih =>
    by_cases hline : StartsThread line
    · rw [List.dropWhile_cons_of_neg (by simpa using hline)]
    · rw [List.dropWhile_cons_of_pos (by simpa using hline), ih, threadSections, if_neg hline]

/-- A text dump is read thread by thread: the threads are those that are read from the
sections of the text, each on its own, and the text is refused if and only if one of them is.
Induction on the number of lines. -/
theorem parseMinidumpTxtFile_eq_mapM (lines : List TextLine) :
    parseMinidumpTxtFile lines = (threadSections lines).mapM parseSection := by
  induction hn : lines.length using Nat.strongRecOn generalizing lines with
  | _ n ih =>
    cases lines with
    | nil => rfl
    | cons line rest =>
      rw [List.length_cons] at hn
      by_cases hline : StartsThread line
      · have hdrop := (rest.dropWhile_sublist (¬StartsThread ·)).length_le
        have hrest := ih _ (by omega) (rest.dropWhile (¬StartsThread ·)) rfl
        rw [threadSections_dropWhile] at hrest
        rw [threadSections, if_pos hline, parseMinidumpTxtFile_cons hline, hrest, List.mapM_cons]
        simp only [Option.map_eq_bind]
        rfl
      · rw [threadSections, if_neg hline, parseMinidumpTxtFile, List.foldlM_cons,
          parseLine_info hline]
        exact ih _ (by omega) rest rfl

end DwarfExpr
