import DwarfExpr.ContextFile
import DwarfExpr.Lib.NumberText
import DwarfExpr.Lib.Words

/-!
# Text dumps of minidumps

`parse_minidump_txt_file` of the convertor goes through the lines of a text dump and knows
by the block it is in what a line means. It looks at the names of registers as little as
at the ASCII column of a stack dump: it takes tokens by their position.
-/

namespace DwarfExpr

open NumberText (ofText strip)
open Words (words)

/-- A line of the file, with its newline. -/
abbrev TextLine := List Char

/-- `str.isspace` of a character. -/
def isSpace (c : Char) : Bool :=
  NumberText.isBlank c || c.toNat ∈ [0x1c, 0x1d, 0x1e, 0x1f]

/-- Blanks are spaces. -/
theorem isSpace_of_mem_blanks {n : ℕ} {c : Char} (hc : c ∈ List.replicate n ' ') :
    isSpace c = true := by
  rw [List.eq_of_mem_replicate hc]
  decide

/-- `tokenizer`. -/
def tokenizer (text : List Char) (tokens : List (List Char)) : List (List Char) :=
  (words ' ' text).filter (· ∉ tokens)

/-- `hexint`. -/
def hexint (text : List Char) (defVal : ℤ) : ℤ := (ofText 16 text).getD defVal

/-- The blocks of a text dump. -/
inductive ParserBlock where
  | info | thread | register | stack
  deriving DecidableEq, Repr

/-- What `parse_minidump_txt_file` has read: the block it is in, and the threads. -/
structure ParserState where
  block : ParserBlock
  threads : List ConvertorThread
  deriving DecidableEq, Repr

/-- Change the entry `xs[-1]`; `none` if there is none. -/
def onLast {α : Type} (change : α → Option α) (xs : List α) : Option (List α) :=
  match xs.getLast? with
  | none => none
  | some x => (change x).map fun x => xs.dropLast ++ [x]

/-- Change the frame `threads[-1]["frames"][-1]`. -/
def onLastFrame (change : ConvertorFrame → Option ConvertorFrame)
    (threads : List ConvertorThread) : Option (List ConvertorThread) :=
  onLast (fun t => (onLast change t.frames).map fun frames => { t with frames := frames }) threads

/-- Changing the last entry. -/
theorem onLast_concat {α : Type} (change : α → Option α) (xs : List α) (x : α) :
    onLast change (xs ++ [x]) = (change x).map fun x => xs ++ [x] := by
  simp [onLast]

/-- The entry that is changed is the last one. -/
theorem onLast_cases {α : Type} {change : α → Option α} {xs ys : List α}
    (h : onLast change xs = some ys) :
    ∃ front x y, xs = front ++ [x] ∧ change x = some y ∧ ys = front ++ [y] := by
  unfold onLast at h
  cases hlast : xs.getLast? with
  | none => simp [hlast] at h
  | some x =>
    obtain ⟨front, rfl⟩ := List.getLast?_eq_some_iff.mp hlast
    simp only [hlast, List.dropLast_concat] at h
    obtain ⟨y, hy, rfl⟩ := Option.map_eq_some_iff.mp h
    exact ⟨front, x, y, rfl, hy, rfl⟩

/-- Changing the last frame. -/
theorem onLastFrame_concat (change : ConvertorFrame → Option ConvertorFrame)
    (threads : List ConvertorThread) (thread : ConvertorThread) (frame : ConvertorFrame) :
    onLastFrame change (threads ++ [{ thread with frames := thread.frames ++ [frame] }]) =
      (change frame).map fun frame =>
        threads ++ [{ thread with frames := thread.frames ++ [frame] }] := by
  rw [onLastFrame, onLast_concat, onLast_concat]
  cases change frame <;> rfl

/-- The thread of a line that starts with `Thread`. -/
def threadHeader (line : TextLine) : Option ConvertorThread :=
  match (line.splitOn ' ')[1]? with
  | none => none
  | some token =>
    (ofText 10 token).map fun tid =>
      ⟨tid, line.tails.any ("(crashed)".toList.isPrefixOf ·), []⟩

/-- A line with a blank in front does not start with `Thread`. -/
theorem blank_not_thread (text : List Char) : ¬"Thread".toList <+: ' ' :: text := by
  rintro ⟨rest, hrest⟩
  exact absurd (List.cons.inj hrest).1 (by decide)

/-- The frame of a line that matches `(\d+)  (.*)`. The decimal digits of other scripts, which
`\d` matches too, are left out. -/
def frameHeader (line : TextLine) : Option ConvertorFrame :=
  let digits := line.takeWhile Char.isDigit
  match line.dropWhile Char.isDigit with
  | ' ' :: ' ' :: func =>
    if digits = [] then none
    else (ofText 10 digits).map fun num =>
      ⟨num, .ofList (func.takeWhile (· ≠ '\n')), [], 0, []⟩
  | _ => none

/-- The tokens with an odd index. -/
def oddTokens {α : Type} : List α → List α
  | _ :: token :: rest => token :: oddTokens rest
  | _ => []

/-- The loop over the bytes of a stack row; `none` if one does not fit a byte. -/
def appendBytes : List UInt8 → List (List Char) → Option (List UInt8)
  | s, [] => some s
  | s, token :: rest =>
    let c := hexint token (-1)
    if c ≠ -1 then
      if 0 ≤ c ∧ c < 256 then appendBytes (s ++ [UInt8.ofNat c.toNat]) rest else none
    else appendBytes s rest

/-- The body of the loop of `parse_minidump_txt_file`; `none` is an exception. -/
def parseLine (st : ParserState) (line : TextLine) : Option ParserState :=
  if "Thread".toList <+: line then
    (threadHeader line).map fun thread => ⟨.thread, st.threads ++ [thread]⟩
  else
    match st.block with
    | .info => some st
    | .thread =>
      match line with
      | [] => none
      | c :: rest =>
        match frameHeader (if c = ' ' then rest else line) with
        | some frame =>
          (onLast (fun t => some { t with frames := t.frames ++ [frame] }) st.threads).map
            fun threads => ⟨.register, threads⟩
        | none =>
          if "Stack contents:".toList <+: strip isSpace line then some { st with block := .stack }
          else some st
    | .register =>
      if '=' ∈ line then
        match oddTokens (tokenizer (strip isSpace line) [[' '], ['=']]) with
        | [] => some st
        | values =>
          (onLastFrame (fun f => some { f with regs := f.regs ++ values.map (hexint · (-1)) })
            st.threads).map fun threads => { st with threads := threads }
      else some { st with block := .thread }
    | .stack =>
      match (tokenizer line [[' ']]).take 17 with
      | [] => none
      | token :: rest =>
        let addr := hexint token 0
        if addr ≠ 0 then
          (onLastFrame (fun f => (appendBytes f.stack rest).map fun s =>
              { f with
                stackBaseAddr := if f.stackBaseAddr = 0 then addr else f.stackBaseAddr
                stack := s })
            st.threads).map fun threads => { st with threads := threads }
        else (onLastFrame some st.threads).map fun _ => { st with block := .thread }

/-- What a line can do: it begins a thread or a frame, it changes the last frame, of which a
row of the stack leaves the registers, or it changes no thread. -/
theorem parseLine_cases {st st' : ParserState} {line : TextLine}
    (hline : parseLine st line = some st') :
    (∃ thread, st' = ⟨.thread, st.threads ++ [thread]⟩) ∨
      (∃ frame threads, st.block = .thread ∧ st' = ⟨.register, threads⟩ ∧
        onLast (fun t => some { t with frames := t.frames ++ [frame] }) st.threads =
          some threads) ∨
      (∃ change threads, st' = ⟨st.block, threads⟩ ∧
        onLastFrame change st.threads = some threads ∧
          (st.block = .register ∨ st.block = .stack ∧
            ∀ f f' : ConvertorFrame, change f = some f' → f'.regs = f.regs)) ∨
      (st'.threads = st.threads ∧ (st'.block = .register → st.block = .register)) := by
  obtain ⟨block, all⟩ := st
  unfold parseLine at hline
  split at hline
  · obtain ⟨thread, -, rfl⟩ := Option.map_eq_some_iff.mp hline
    exact Or.inl ⟨thread, rfl⟩
  · cases block with
    | info =>
      cases hline
      exact Or.inr (Or.inr (Or.inr ⟨rfl, id⟩))
    | thread =>
      cases line with
      | nil => cases hline
      | cons c rest =>
        cases hheader : frameHeader (if c = ' ' then rest else c :: rest) with
        | some frame =>
          simp only [hheader] at hline
          obtain ⟨threads, hadd, rfl⟩ := Option.map_eq_some_iff.mp hline
          exact Or.inr (Or.inl ⟨frame, threads, rfl, rfl, hadd⟩)
        | none =>
          simp only [hheader] at hline
          right; right; right
          split at hline <;> cases hline <;> exact ⟨rfl, fun h => by cases h⟩
    | register =>
      dsimp only at hline
      split at hline
      · split at hline
        · cases hline
          exact Or.inr (Or.inr (Or.inr ⟨rfl, id⟩))
        · obtain ⟨threads, hchange, rfl⟩ := Option.map_eq_some_iff.mp hline
          exact Or.inr (Or.inr (Or.inl ⟨_, threads, rfl, hchange, Or.inl rfl⟩))
      · cases hline
        exact Or.inr (Or.inr (Or.inr ⟨rfl, fun _ => rfl⟩))
    | stack =>
      dsimp only at hline
      split at hline
      · cases hline
      · split at hline
        · obtain ⟨threads, hchange, rfl⟩ := Option.map_eq_some_iff.mp hline
          refine Or.inr (Or.inr (Or.inl ⟨_, threads, rfl, hchange, Or.inr ⟨rfl, ?_⟩⟩))
          intro f f' hf
          obtain ⟨s, -, rfl⟩ := Option.map_eq_some_iff.mp hf
          rfl
        · obtain ⟨threads, -, rfl⟩ := Option.map_eq_some_iff.mp hline
          exact Or.inr (Or.inr (Or.inr ⟨rfl, fun h => by cases h⟩))

/-- `parse_minidump_txt_file`, on the lines of the file. -/
def parseMinidumpTxtFile (lines : List TextLine) : Option (List ConvertorThread) :=
  (lines.foldlM parseLine ⟨.info, []⟩).map ParserState.threads

end DwarfExpr
