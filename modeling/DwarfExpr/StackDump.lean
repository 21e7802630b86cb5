import DwarfExpr.MinidumpText

/-!
# Stack dumps in a text dump

A dump has one row for every sixteen bytes: the address, the bytes, padding in a partial
row, and the bytes once more as characters. The parser takes the first seventeen tokens of
a row. In a full row these are the address and the bytes; in a partial row they reach into
the characters, where they may look like numbers.
-/

namespace DwarfExpr

open NumberText (ofText toHex)
open Words (words)

/-- `isprint`, in the C locale. -/
def isPrint (b : UInt8) : Bool := 0x20 ≤ b && b ≤ 0x7e

/-- The character of a byte in the ASCII column. -/
def shownChar (b : UInt8) : Char := if isPrint b then Char.ofNat b.toNat else '.'

/-- One row of `hexdump`, for at most sixteen bytes at an address. -/
def stackRow (indent : ℕ) (off : BitVec 64) (bytes : List UInt8) : TextLine :=
  List.replicate indent ' ' ++ ' ' :: (toHex 16 off.toNat ++
    (bytes.flatMap (fun b => ' ' :: toHex 2 b.toNat) ++
      (List.replicate (3 * (16 - bytes.length)) ' ' ++ ' ' :: ' ' :: (bytes.map shownChar ++
        (List.replicate (16 - bytes.length) ' ' ++ ['\n'])))))

/-- The rows of `hexdump`. -/
def stackRows (indent : ℕ) (off : BitVec 64) (bytes : List UInt8) : List TextLine :=
  if h : bytes = [] then []
  else stackRow indent off (bytes.take 16) :: stackRows indent (off + 16) (bytes.drop 16)
termination_by bytes.length
decreasing_by
  have hpos := List.length_pos_of_ne_nil h
  rw [List.length_drop]
  omega

/-- The line in front of a stack dump. -/
def contentsLine (indent : ℕ) : TextLine :=
  List.replicate indent ' ' ++ "Stack contents:\n".toList

/-- The tokens of a row behind its bytes. -/
def columnTokens (bytes : List UInt8) : List (List Char) :=
  words ' ' (bytes.map shownChar ++ (List.replicate (16 - bytes.length) ' ' ++ ['\n']))

/-- The blank is no word, so nothing else is left out. -/
theorem tokenizer_blank (text : List Char) : tokenizer text [[' ']] = words ' ' text := by
  rw [tokenizer, List.filter_eq_self]
  intro w hw
  have hsep := Words.not_mem_of_mem_words hw
  simp only [List.mem_singleton, decide_eq_true_eq]
  rintro rfl
  exact hsep (List.mem_singleton.mpr rfl)

/-- A printed number is a word. -/
theorem words_toHex_append {width : ℕ} (hwidth : width ≠ 0) (n : ℕ) (t : List Char) :
    words ' ' (toHex width n ++ ' ' :: t) = toHex width n :: words ' ' t := by
  apply Words.words_word_append
  · exact NumberText.blank_not_mem_toHex width n
  · exact NumberText.toHex_ne_nil hwidth n

/-- The bytes of a row are its words. Induction on the bytes. -/
theorem words_bytes_append (bytes : List UInt8) (t : List Char) :
    words ' ' (bytes.flatMap (fun b => ' ' :: toHex 2 b.toNat) ++ ' ' :: t) =
      bytes.map (fun b => toHex 2 b.toNat) ++ words ' ' t := by
  induction bytes with
  | nil => simp
  | cons b bytes ih =>
    obtain ⟨u, hu⟩ :
        ∃ u, bytes.flatMap (fun b => ' ' :: toHex 2 b.toNat) ++ ' ' :: t = ' ' :: u := by
      cases bytes with
      | nil => exact ⟨t, rfl⟩
      | cons b bytes => exact ⟨_, rfl⟩
    rw [List.flatMap_cons, List.cons_append, List.cons_append, Words.words_cons_self,
      List.append_assoc, hu, words_toHex_append (by decide), ← Words.words_cons_self u, ← hu, ih]
    rfl

/-- The tokens of a row. -/
theorem tokenizer_stackRow (indent : ℕ) (off : BitVec 64) (bytes : List UInt8) :
    tokenizer (stackRow indent off bytes) [[' ']] =
      toHex 16 off.toNat :: (bytes.map (fun b => toHex 2 b.toNat) ++ columnTokens bytes) := by
  rw [tokenizer_blank, stackRow, Words.words_replicate_append, Words.words_cons_self]
  obtain ⟨u, hu⟩ : ∃ u, bytes.flatMap (fun b => ' ' :: toHex 2 b.toNat) ++
      (List.replicate (3 * (16 - bytes.length)) ' ' ++ ' ' :: ' ' :: (bytes.map shownChar ++
        (List.replicate (16 - bytes.length) ' ' ++ ['\n']))) = ' ' :: u := by
    cases bytes with
    | nil => exact ⟨_, rfl⟩
    | cons b bytes => exact ⟨_, rfl⟩
  have hpad (n : ℕ) (t : List Char) :
      List.replicate n ' ' ++ ' ' :: t = ' ' :: (List.replicate n ' ' ++ t) := by
    induction n with
    | zero => rfl
    | succ n ih => rw [List.replicate_succ, List.cons_append, ih, List.cons_append]
  rw [hu, words_toHex_append (by decide), ← Words.words_cons_self u, ← hu, hpad, words_bytes_append,
    Words.words_replicate_append, Words.words_cons_self]
  rfl

/-- The bytes of a row are appended. Induction on the bytes. -/
theorem appendBytes_bytes (s bytes : List UInt8) (tokens : List (List Char)) :
    appendBytes s (bytes.map (fun b => toHex 2 b.toNat) ++ tokens) =
      appendBytes (s ++ bytes) tokens := by
  induction bytes generalizing s with
  | nil => simp
  | cons b bytes ih =>
    have hvalue : hexint (toHex 2 b.toNat) (-1) = (b.toNat : ℤ) := by
      rw [hexint, NumberText.ofText_toHex (by decide) b.toNat_lt]
      rfl
    have hb := b.toNat_lt
    rw [List.map_cons, List.cons_append, appendBytes, hvalue, if_pos (by omega),
      if_pos (by omega), ih]
    simp

/-- The tokens leave the bytes as they are exactly when each of them is read as -1, which
also is what a token is read as that is no number. Otherwise bytes are added. -/
theorem appendBytes_eq_self_iff {s : List UInt8} {tokens : List (List Char)} :
    appendBytes s tokens = some s ↔ ∀ token ∈ tokens, hexint token (-1) = -1 := by
  have hgrows {s s' : List UInt8} {tokens : List (List Char)}
      (h : appendBytes s tokens = some s') : s <+: s' := by
    induction tokens generalizing s with
    | nil =>
      cases h
      exact List.prefix_rfl
    | cons token rest ih =>
      rw [appendBytes] at h
      by_cases hc : hexint token (-1) = -1
      · rw [if_neg (not_not.mpr hc)] at h
        exact ih h
      · rw [if_pos hc] at h
        split at h
        · exact (List.prefix_append _ _).trans (ih h)
        · cases h
  induction tokens with
  | nil => simp [appendBytes]
  | cons token rest ih =>
    rw [List.forall_mem_cons]
    by_cases hc : hexint token (-1) = -1
    · have hskip : appendBytes s (token :: rest) = appendBytes s rest := by
        rw [appendBytes, if_neg (not_not.mpr hc)]
      rw [hskip]
      exact ih.trans (by simp [hc])
    · rw [appendBytes, if_pos hc]
      simp only [hc, false_and, iff_false]
      split
      · intro h
        have hlength := (hgrows h).length_le
        rw [List.length_append, List.length_singleton] at hlength
        omega
      · exact (Option.some_ne_none s).symm

/-- The state of the parser in a frame of which it reads the stack. -/
def inStack (threads : List ConvertorThread) (thread : ConvertorThread) (frame : ConvertorFrame) :
    ParserState :=
  ⟨.stack, threads ++ [{ thread with frames := thread.frames ++ [frame] }]⟩

/-- A frame at a row of its dump, with the stack that has been read: the address of the
first row is the base address. -/
def ConvertorFrame.withRow (frame : ConvertorFrame) (off : BitVec 64) (stack : List UInt8) :
    ConvertorFrame :=
  { frame with
    stackBaseAddr := if frame.stackBaseAddr = 0 then (off.toNat : ℤ) else frame.stackBaseAddr
    stack := stack }

@[simp] theorem ConvertorFrame.withRow_stack (frame : ConvertorFrame) (off : BitVec 64)
    (stack : List UInt8) : (frame.withRow off stack).stack = stack :=
  rfl

/-- The first row sets the base address. -/
theorem ConvertorFrame.withRow_of_noBase {frame : ConvertorFrame} (h : frame.stackBaseAddr = 0)
    (off : BitVec 64) (stack : List UInt8) :
    frame.withRow off stack = { frame with stackBaseAddr := (off.toNat : ℤ), stack := stack } := by
  rw [withRow, if_pos h]

/-- A row behind another one does not set the base address again. -/
theorem ConvertorFrame.withRow_withRow (frame : ConvertorFrame) {off : BitVec 64} (hoff : off ≠ 0)
    (off' : BitVec 64) (stack stack' : List UInt8) :
    (frame.withRow off stack).withRow off' stack' = frame.withRow off stack' := by
  have hbase : (frame.withRow off stack).stackBaseAddr ≠ 0 := by
    unfold withRow
    split
    · intro h
      exact hoff (BitVec.toNat_inj.mp (Int.natCast_eq_zero.mp h))
    · assumption
  rw [withRow, if_neg hbase]
  rfl

/-- A row with a blank in front is no thread header. -/
theorem stackRow_not_thread (indent : ℕ) (off : BitVec 64) (bytes : List UInt8) :
    ¬"Thread".toList <+: stackRow indent off bytes := by
  cases indent <;> exact blank_not_thread _

/-- What the parser makes of a row: it sets the base address of a frame without one, and
appends the bytes and what is left of the seventeen tokens. A row at the address zero ends
the dump. -/
theorem parseLine_stackRow (indent : ℕ) (off : BitVec 64) {bytes : List UInt8}
    (hbytes : bytes.length ≤ 16) (threads : List ConvertorThread) (thread : ConvertorThread)
    (frame : ConvertorFrame) :
    parseLine (inStack threads thread frame) (stackRow indent off bytes) =
      if off = 0 then some { inStack threads thread frame with block := .thread }
      else
        (appendBytes (frame.stack ++ bytes) ((columnTokens bytes).take (16 - bytes.length))).map
          fun s => inStack threads thread (frame.withRow off s) := by
  have htokens : (tokenizer (stackRow indent off bytes) [[' ']]).take 17 =
      toHex 16 off.toNat :: (bytes.map (fun b => toHex 2 b.toNat) ++
        (columnTokens bytes).take (16 - bytes.length)) := by
    rw [tokenizer_stackRow, List.take_succ_cons, List.take_append, List.take_of_length_le,
      List.length_map]
    rw [List.length_map]
    exact hbytes
  have haddr : hexint (toHex 16 off.toNat) 0 = (off.toNat : ℤ) := by
    rw [hexint, NumberText.ofText_toHex (by decide) off.isLt]
    rfl
  have hzero : (off.toNat : ℤ) = 0 ↔ off = 0 := by
    rw [Int.natCast_eq_zero]
    exact BitVec.toNat_inj (y := 0)
  unfold parseLine
  rw [if_neg (stackRow_not_thread _ _ _)]
  simp only [inStack, htokens, haddr, ne_eq, hzero, onLastFrame_concat]
  by_cases hoff : off = 0
  · rw [if_neg (not_not.mpr hoff), if_pos hoff]
    rfl
  · rw [if_pos hoff, if_neg hoff, appendBytes_bytes]
    cases appendBytes (frame.stack ++ bytes) ((columnTokens bytes).take (16 - bytes.length)) <;> rfl

/-- No row is printed for the address zero. -/
def NoRowAtZero (off : BitVec 64) (bytes : List UInt8) : Prop :=
  ∀ k, 16 * k < bytes.length → off + BitVec.ofNat 64 (16 * k) ≠ 0

/-- The bytes of the last row if it is partial, and otherwise none. -/
def partialRow (bytes : List UInt8) : List UInt8 :=
  bytes.drop (bytes.length - bytes.length % 16)

/-- A partial row has fewer than sixteen bytes. -/
theorem length_partialRow_lt (bytes : List UInt8) : (partialRow bytes).length < 16 := by
  rw [partialRow, List.length_drop]
  omega

/-- The tokens of the ASCII column that the parser looks at are not read as numbers other
than -1. -/
def HarmlessColumn (bytes : List UInt8) : Prop :=
  ∀ token ∈ (words ' ' (bytes.map shownChar)).take (16 - bytes.length), hexint token (-1) = -1

/-- Harmless columns are recognized by reading their tokens. -/
instance decidableHarmlessColumn (bytes : List UInt8) : Decidable (HarmlessColumn bytes) :=
  inferInstanceAs (Decidable (∀ token ∈ _, hexint token (-1) = -1))

/-- The newline behind the column is a token of its own in a partial row, and is no number. -/
theorem harmlessColumn_iff {bytes : List UInt8} (hbytes : bytes.length < 16) :
    (∀ token ∈ (columnTokens bytes).take (16 - bytes.length), hexint token (-1) = -1) ↔
      HarmlessColumn bytes := by
  obtain ⟨n, hn⟩ : ∃ n, 16 - bytes.length = n + 1 := ⟨15 - bytes.length, by omega⟩
  have htokens : columnTokens bytes = words ' ' (bytes.map shownChar) ++ [['\n']] := by
    have hend : words ' ' ['\n'] = [['\n']] :=
      Words.words_eq_singleton (by decide) (by decide)
    rw [columnTokens, hn, List.replicate_succ, List.cons_append, Words.words_append_cons,
      Words.words_replicate_append, hend]
  have hnewline : hexint ['\n'] (-1) = -1 := by decide
  rw [htokens, List.take_append]
  simp only [List.mem_append, or_imp, forall_and, HarmlessColumn]
  apply and_iff_left
  intro token htoken
  rw [List.mem_singleton.mp (List.mem_of_mem_take htoken)]
  exact hnewline

/-- A dump of bytes begins with a row. -/
theorem stackRows_of_ne_nil (indent : ℕ) (off : BitVec 64) {bytes : List UInt8}
    (hbytes : bytes ≠ []) :
    stackRows indent off bytes =
      stackRow indent off (bytes.take 16) :: stackRows indent (off + 16) (bytes.drop 16) := by
  rw [stackRows, dif_neg hbytes]

/-- The rows after the first have the addresses and the partial row of the whole dump. -/
theorem noRowAtZero_drop {off : BitVec 64} {bytes : List UInt8} (hbytes : bytes ≠ []) :
    NoRowAtZero off bytes ↔ off ≠ 0 ∧ NoRowAtZero (off + 16) (bytes.drop 16) := by
  have hpos := List.length_pos_of_ne_nil hbytes
  have hshift (k : ℕ) :
      off + BitVec.ofNat 64 (16 * (k + 1)) = off + 16 + BitVec.ofNat 64 (16 * k) := by
    have hsum : BitVec.ofNat 64 (16 * (k + 1)) = 16 + BitVec.ofNat 64 (16 * k) := by
      rw [Nat.mul_succ, Nat.add_comm, BitVec.ofNat_add]
      rfl
    rw [hsum, BitVec.add_assoc]
  constructor
  · intro h
    refine ⟨by simpa using h 0 (by omega), fun k hk => ?_⟩
    rw [List.length_drop] at hk
    rw [← hshift]
    exact h (k + 1) (by omega)
  · rintro ⟨hfirst, hrest⟩ k hk
    cases k with
    | zero => simpa using hfirst
    | succ k =>
      rw [hshift]
      apply hrest
      rw [List.length_drop]
      omega

/-- A dump that ends in a full row, or in a partial one, ends so without its first row. -/
theorem partialRow_drop {bytes : List UInt8} (hbytes : 16 ≤ bytes.length) :
    partialRow (bytes.drop 16) = partialRow bytes := by
  rw [partialRow, partialRow, List.drop_drop, List.length_drop]
  congr 1
  omega

/-- What the rows of a dump without a row at zero make of a frame: the base address is set,
and the bytes are appended with what the column of the partial row adds. Induction on the
rows. -/
theorem run_stackRows (indent : ℕ) {off : BitVec 64} {bytes : List UInt8} (hbytes : bytes ≠ [])
    (hzero : NoRowAtZero off bytes) (threads : List ConvertorThread) (thread : ConvertorThread)
    (frame : ConvertorFrame) :
    (stackRows indent off bytes).foldlM parseLine (inStack threads thread frame) =
      (appendBytes (frame.stack ++ bytes)
          ((columnTokens (partialRow bytes)).take (16 - (partialRow bytes).length))).map
        fun s => inStack threads thread (frame.withRow off s) := by
  induction hn : bytes.length using Nat.strongRecOn generalizing off bytes frame with
  | _ n ih =>
    have hpos := List.length_pos_of_ne_nil hbytes
    obtain ⟨hoff, hrest⟩ := (noRowAtZero_drop hbytes).mp hzero
    rw [stackRows_of_ne_nil indent off hbytes, List.foldlM_cons,
      parseLine_stackRow indent off (List.length_take_le ..), if_neg hoff]
    rcases Nat.lt_trichotomy bytes.length 16 with hshort | hfull | hlong
    · have htake : bytes.take 16 = bytes := List.take_of_length_le (by omega)
      have hdrop : bytes.drop 16 = [] := List.drop_of_length_le (by omega)
      have hpartial : partialRow bytes = bytes := by
        rw [partialRow, Nat.mod_eq_of_lt hshort, Nat.sub_self, List.drop_zero]
      rw [htake, hdrop, hpartial, stackRows, dif_pos rfl]
      simp only [List.foldlM_nil, bind_pure]
    · have htake : bytes.take 16 = bytes := List.take_of_length_le (by omega)
      have hdrop : bytes.drop 16 = [] := List.drop_of_length_le (by omega)
      have hpartial : partialRow bytes = [] := by
        rw [partialRow, hfull]
        exact hdrop
      have hkept : appendBytes (frame.stack ++ bytes)
          ((columnTokens []).take (16 - ([] : List UInt8).length)) = some (frame.stack ++ bytes) :=
        appendBytes_eq_self_iff.mpr
          ((harmlessColumn_iff (by decide)).mpr (by simp [HarmlessColumn]))
      rw [htake, hdrop, hpartial, hkept, hfull, stackRows, dif_pos rfl]
      simp only [List.foldlM_nil, bind_pure, Nat.sub_self, List.take_zero, appendBytes]
    · have hlength : (bytes.take 16).length = 16 := by
        rw [List.length_take]
        omega
      have hne : bytes.drop 16 ≠ [] := by
        intro hnil
        have hlength := congrArg List.length hnil
        rw [List.length_drop, List.length_nil] at hlength
        omega
      have hnext := ih (bytes.drop 16).length (by rw [List.length_drop]; omega) hne hrest
        (frame.withRow off (frame.stack ++ bytes.take 16)) rfl
      rw [hlength, Nat.sub_self, List.take_zero, appendBytes, Option.map_some]
      rw [partialRow_drop (by omega), ConvertorFrame.withRow_stack, List.append_assoc,
        List.take_append_drop] at hnext
      simp only [frame.withRow_withRow hoff] at hnext
      exact hnext

/-- A line of which the first character that is no space is the given one does not contain
another one there. -/
theorem not_prefix_strip {p : Char → Bool} {front rest : List Char} {c d : Char}
    {text : List Char} (hfront : ∀ x ∈ front, p x = true) (hc : p c = false) (hcd : c ≠ d) :
    ¬d :: text <+: NumberText.strip p (front ++ c :: rest) := by
  intro h
  have hdrop : (front ++ c :: rest).dropWhile p = c :: rest := by
    rw [List.dropWhile_append_of_pos hfront, List.dropWhile_cons_of_neg (by simp [hc])]
  rw [NumberText.strip, hdrop] at h
  obtain ⟨after, hlist⟩ := h.trans (List.rdropWhile_prefix p _)
  exact hcd (List.cons.inj hlist).1.symm

/-- A word that one blank follows is no number of a frame. -/
theorem dropWhile_isDigit_ne {w t func : List Char} {c : Char} (hw : ' ' ∉ w) (hc : c ≠ ' ') :
    (w ++ ' ' :: c :: t).dropWhile Char.isDigit ≠ ' ' :: ' ' :: func := by
  induction w with
  | nil =>
    intro h
    exact hc (List.cons.inj (List.cons.inj h).2).1
  | cons x w ih =>
    rw [List.mem_cons, not_or] at hw
    rw [List.cons_append]
    cases hx : x.isDigit with
    | true =>
      rw [List.dropWhile_cons_of_pos hx]
      exact ih hw.2
    | false =>
      rw [List.dropWhile_cons_of_neg (by simp [hx])]
      intro h
      exact hw.1 (List.cons.inj h).1.symm

/-- A line that begins with no digit is no line of a frame. -/
theorem frameHeader_of_not_digit {c : Char} (hc : c.isDigit = false) (t : List Char) :
    frameHeader (c :: t) = none := by
  unfold frameHeader
  rw [List.takeWhile_cons_of_neg (by simp [hc]), List.dropWhile_cons_of_neg (by simp [hc])]
  split <;> rfl

/-- No frame is read from a stack row, with or without its first blank. -/
theorem frameHeader_stackRow (indent : ℕ) (off : BitVec 64) {bytes : List UInt8}
    (hbytes : bytes ≠ []) {c : Char} {rest : List Char}
    (hrow : stackRow indent off bytes = c :: rest) :
    c = ' ' ∧ frameHeader rest = none := by
  cases indent with
  | succ indent =>
    obtain ⟨rfl, rfl⟩ := List.cons.inj hrow
    refine ⟨rfl, ?_⟩
    cases indent <;> exact frameHeader_of_not_digit (by decide) _
  | zero =>
    obtain ⟨rfl, rfl⟩ := List.cons.inj hrow
    refine ⟨rfl, ?_⟩
    cases bytes with
    | nil => exact absurd rfl hbytes
    | cons b bytes =>
      have haddr := NumberText.blank_not_mem_toHex 16 off.toNat
      have hdigit : Nat.digitChar (b.toNat / 16 % 16) ≠ ' ' := by
        have h := (NumberText.digitChar_spec ⟨b.toNat / 16 % 16, Nat.mod_lt _ (by decide)⟩).2.2
        simp only [List.mem_cons, not_or] at h
        exact h.1
      unfold frameHeader
      split
      · rename_i func heq
        exact absurd heq (dropWhile_isDigit_ne haddr hdigit)
      · rfl

/-- Outside a stack dump a row of bytes has no meaning. -/
theorem parseLine_stackRow_thread (indent : ℕ) (off : BitVec 64) {bytes : List UInt8}
    (hbytes : bytes ≠ []) (threads : List ConvertorThread) :
    parseLine ⟨.thread, threads⟩ (stackRow indent off bytes) = some ⟨.thread, threads⟩ := by
  have hcontents :
      ¬"Stack contents:".toList <+: NumberText.strip isSpace (stackRow indent off bytes) := by
    have hdigit : ∀ d : Fin 16, isSpace (Nat.digitChar d) = false ∧ Nat.digitChar d ≠ 'S' := by
      decide
    have hfront : ∀ x ∈ List.replicate indent ' ' ++ [' '], isSpace x = true := by
      intro x hx
      rw [← List.replicate_succ'] at hx
      exact isSpace_of_mem_blanks hx
    cases haddr : toHex 16 off.toNat with
    | nil => exact absurd haddr (NumberText.toHex_ne_nil (by decide) _)
    | cons x addr =>
      obtain ⟨d, hd⟩ := NumberText.exists_of_mem_toHex (haddr ▸ List.mem_cons_self ..)
      obtain ⟨hspace, hne⟩ := hdigit d
      rw [← hd] at hspace hne
      obtain ⟨t, hrow⟩ :
          ∃ t, stackRow indent off bytes = (List.replicate indent ' ' ++ [' ']) ++ x :: t := by
        rw [stackRow, haddr, List.cons_append]
        exact ⟨_, List.append_cons ..⟩
      rw [hrow]
      exact not_prefix_strip hfront hspace hne
  unfold parseLine
  rw [if_neg (stackRow_not_thread _ _ _)]
  cases hrow : stackRow indent off bytes with
  | nil => exact absurd hrow (by simp [stackRow])
  | cons c rest =>
    obtain ⟨rfl, hframe⟩ := frameHeader_stackRow indent off hbytes hrow
    rw [hrow] at hcontents
    simp only [if_true, hframe, if_neg hcontents]

/-- Outside a stack dump rows have no meaning. Induction on the rows. -/
theorem run_stackRows_thread (indent : ℕ) (off : BitVec 64) (bytes : List UInt8)
    (threads : List ConvertorThread) :
    (stackRows indent off bytes).foldlM parseLine ⟨.thread, threads⟩ =
      some ⟨.thread, threads⟩ := by
  induction hn : bytes.length using Nat.strongRecOn generalizing off bytes with
  | _ n ih =>
    by_cases hbytes : bytes = []
    · rw [stackRows, dif_pos hbytes]
      rfl
    · have hpos := List.length_pos_of_ne_nil hbytes
      have htake : bytes.take 16 ≠ [] := by
        rw [Ne, List.take_eq_nil_iff, not_or]
        exact ⟨by decide, hbytes⟩
      rw [stackRows_of_ne_nil indent off hbytes, List.foldlM_cons,
        parseLine_stackRow_thread indent off htake]
      exact ih (bytes.drop 16).length (by rw [List.length_drop]; omega) (off + 16) _ rfl

/-- A dump with a row at zero is read up to that row. Induction on the rows. -/
theorem run_stackRows_zero (indent : ℕ) {off : BitVec 64} {bytes : List UInt8}
    (hzero : ¬NoRowAtZero off bytes) (threads : List ConvertorThread) (thread : ConvertorThread)
    (frame : ConvertorFrame) :
    ∃ k frame', 16 * k < bytes.length ∧ frame'.stack = frame.stack ++ bytes.take (16 * k) ∧
      (stackRows indent off bytes).foldlM parseLine (inStack threads thread frame) =
        some { inStack threads thread frame' with block := .thread } := by
  induction hn : bytes.length using Nat.strongRecOn generalizing off bytes frame with
  | _ n ih =>
    have hbytes : bytes ≠ [] := by
      rintro rfl
      exact hzero fun k hk => absurd hk (Nat.not_lt_zero _)
    have hpos := List.length_pos_of_ne_nil hbytes
    rw [stackRows_of_ne_nil indent off hbytes, List.foldlM_cons,
      parseLine_stackRow indent off (List.length_take_le ..)]
    by_cases hoff : off = 0
    · rw [if_pos hoff]
      exact ⟨0, frame, by omega, by simp, run_stackRows_thread indent _ _ _⟩
    · rw [noRowAtZero_drop hbytes, not_and] at hzero
      have hlater := hzero hoff
      have hlong : 16 < bytes.length := by
        by_contra hshort
        apply hlater
        intro k hk
        rw [List.length_drop] at hk
        omega
      have hlength : (bytes.take 16).length = 16 := by
        rw [List.length_take]
        omega
      obtain ⟨k, frame', hk, hstack, hrun⟩ := ih (bytes.drop 16).length
        (by rw [List.length_drop]; omega) hlater
        (frame.withRow off (frame.stack ++ bytes.take 16)) rfl
      rw [List.length_drop] at hk
      refine ⟨k + 1, frame', by omega, ?_, ?_⟩
      · have hsplit :
            bytes.take (16 * (k + 1)) = bytes.take 16 ++ (bytes.drop 16).take (16 * k) := by
          rw [← List.take_add]
          congr 1
          omega
        rw [hstack, hsplit, ConvertorFrame.withRow_stack, List.append_assoc]
      · rw [if_neg hoff, hlength, Nat.sub_self, List.take_zero, appendBytes, Option.map_some]
        exact hrun

/-- The line in front of a dump begins it. -/
theorem parseLine_contentsLine (indent : ℕ) (threads : List ConvertorThread) :
    parseLine ⟨.thread, threads⟩ (contentsLine indent) = some ⟨.stack, threads⟩ := by
  have hstrip : NumberText.strip isSpace (contentsLine indent) = "Stack contents:".toList := by
    rw [NumberText.strip, contentsLine,
      List.dropWhile_append_of_pos fun x hx => isSpace_of_mem_blanks hx]
    decide
  have hthread : ¬"Thread".toList <+: contentsLine indent := by
    cases indent with
    | zero => decide
    | succ indent => exact blank_not_thread _
  unfold parseLine
  rw [if_neg hthread]
  cases indent with
  | zero => rfl
  | succ indent =>
    have hframe : frameHeader (List.replicate indent ' ' ++ "Stack contents:\n".toList) = none := by
      cases indent <;> exact frameHeader_of_not_digit (by decide) _
    have hline : contentsLine (indent + 1) =
        ' ' :: (List.replicate indent ' ' ++ "Stack contents:\n".toList) := rfl
    rw [hline] at hstrip
    simp only [hline, if_true, hframe, hstrip, List.prefix_rfl]

/-- The frame at a position of the threads. -/
def frameAt (threads : List ConvertorThread) (i j : ℕ) : Option ConvertorFrame :=
  threads[i]?.bind fun t => t.frames[j]?

/-- The last frame. -/
theorem frameAt_concat (threads : List ConvertorThread) (thread : ConvertorThread)
    (frame : ConvertorFrame) :
    frameAt (threads ++ [{ thread with frames := thread.frames ++ [frame] }]) threads.length
      thread.frames.length = some frame := by
  simp [frameAt]

/-- A thread that is added changes no frame. -/
theorem frameAt_append {threads : List ConvertorThread} {i j : ℕ} {frame : ConvertorFrame}
    (hframe : frameAt threads i j = some frame) (more : List ConvertorThread) :
    frameAt (threads ++ more) i j = some frame := by
  obtain ⟨t, ht, hframe⟩ := Option.bind_eq_some_iff.mp hframe
  obtain ⟨hi, -⟩ := List.getElem?_eq_some_iff.mp ht
  rw [frameAt, List.getElem?_append_left hi, ht, Option.bind_some, hframe]

/-- A line that is no hex line: its first token is no number. -/
def NoHexLine (line : TextLine) : Prop :=
  ∃ token ∈ (words ' ' line).head?, ofText 16 token = none

/-- A line that begins with `Thread` is the header of a thread. -/
def HeaderIfThread (line : TextLine) : Prop :=
  "Thread".toList <+: line → threadHeader line ≠ none

/-- Behind a stack dump the line that is no hex line ends it, and changes no frame. -/
theorem parseLine_noHexLine {line : TextLine} (hline : NoHexLine line)
    (hheader : HeaderIfThread line) (threads : List ConvertorThread) (thread : ConvertorThread)
    (frame : ConvertorFrame) :
    ∃ st, parseLine (inStack threads thread frame) line = some st ∧
      frameAt st.threads threads.length thread.frames.length = some frame := by
  have hframe := frameAt_concat threads thread frame
  unfold parseLine
  by_cases hthread : "Thread".toList <+: line
  · obtain ⟨new, hnew⟩ := Option.ne_none_iff_exists'.mp (hheader hthread)
    rw [if_pos hthread, hnew]
    exact ⟨_, rfl, frameAt_append hframe [new]⟩
  · obtain ⟨token, htoken, hnumber⟩ := hline
    obtain ⟨rest, hrest⟩ : ∃ rest, words ' ' line = token :: rest := by
      cases hwords : words ' ' line with
      | nil =>
        rw [hwords] at htoken
        cases htoken
      | cons first rest =>
        rw [hwords] at htoken
        exact ⟨rest, by rw [Option.some.inj htoken]⟩
    have haddr : hexint token 0 = 0 := by rw [hexint, hnumber, Option.getD_none]
    rw [if_neg hthread]
    simp only [inStack, tokenizer_blank, hrest, List.take_succ_cons, haddr, ne_eq,
      not_true_eq_false, if_false, onLastFrame_concat, Option.map_some]
    exact ⟨_, rfl, hframe⟩

/-- A line that the parser gets through in any state is a header if it begins with
`Thread`. -/
theorem headerIfThread_of_parseLine {st st' : ParserState} {line : TextLine}
    (hline : parseLine st line = some st') : HeaderIfThread line := by
  intro hthread hnone
  unfold parseLine at hline
  rw [if_pos hthread, hnone] at hline
  cases hline

/-- A frame that is added changes no other frame. -/
theorem frameAt_of_addFrame {threads threads' : List ConvertorThread} {new frame : ConvertorFrame}
    {i j : ℕ}
    (hadd : onLast (fun t => some { t with frames := t.frames ++ [new] }) threads = some threads')
    (hframe : frameAt threads i j = some frame) : frameAt threads' i j = some frame := by
  obtain ⟨front, t, t', rfl, ht, rfl⟩ := onLast_cases hadd
  cases ht
  obtain ⟨found, hfound, hframe⟩ := Option.bind_eq_some_iff.mp hframe
  rcases Nat.lt_or_ge i front.length with hi | hi
  · rw [List.getElem?_append_left hi] at hfound
    rw [frameAt, List.getElem?_append_left hi, hfound, Option.bind_some, hframe]
  · have hlast : i = front.length := by
      obtain ⟨hlt, -⟩ := List.getElem?_eq_some_iff.mp hfound
      rw [List.length_append, List.length_singleton] at hlt
      omega
    subst hlast
    rw [List.getElem?_concat_length] at hfound
    cases hfound
    obtain ⟨hj, -⟩ := List.getElem?_eq_some_iff.mp hframe
    rw [frameAt, List.getElem?_concat_length, Option.bind_some, List.getElem?_append_left hj,
      hframe]

/-- Outside the blocks of a frame no line changes a frame that has been read. -/
theorem parseLine_thread_frameAt {threads : List ConvertorThread} {line : TextLine}
    {st : ParserState} {i j : ℕ} {frame : ConvertorFrame}
    (hline : parseLine ⟨.thread, threads⟩ line = some st)
    (hframe : frameAt threads i j = some frame) : frameAt st.threads i j = some frame := by
  rcases parseLine_cases hline with
    ⟨new, rfl⟩ | ⟨new, threads', -, rfl, hadd⟩ | ⟨_, _, -, -, hblock | ⟨hblock, -⟩⟩ | ⟨hsame, -⟩
  · exact frameAt_append hframe [new]
  · exact frameAt_of_addFrame hadd hframe
  · cases hblock
  · cases hblock
  · rw [hsame]
    exact hframe

/-- Lines up to a frame whose stack has not been read yet. -/
structure DumpStart where
  lines : List TextLine
  threads : List ConvertorThread
  thread : ConvertorThread
  frame : ConvertorFrame
  reads : lines.foldlM parseLine ⟨.info, []⟩ =
    some { inStack threads thread frame with block := .thread }
  noBase : frame.stackBaseAddr = 0
  noStack : frame.stack = []

/-- The text with a dump of bytes behind the start, and a line behind the dump. -/
def DumpStart.text (start : DumpStart) (indent : ℕ) (base : BitVec 64) (bytes : List UInt8)
    (close : TextLine) : List TextLine :=
  start.lines ++ contentsLine indent :: (stackRows indent base bytes ++ [close])

/-- The text is read, and the frame has the base address and the bytes of the dump. -/
def DumpStart.ReadsExactly (start : DumpStart) (indent : ℕ) (base : BitVec 64)
    (bytes : List UInt8) (close : TextLine) : Prop :=
  ∃ threads, parseMinidumpTxtFile (start.text indent base bytes close) = some threads ∧
    frameAt threads start.threads.length start.thread.frames.length =
      some { start.frame with stackBaseAddr := (base.toNat : ℤ), stack := bytes }

/-- Reading the text is reading the rows and the last line. -/
theorem DumpStart.parse_text (start : DumpStart) (indent : ℕ) (base : BitVec 64)
    (bytes : List UInt8) (close : TextLine) :
    parseMinidumpTxtFile (start.text indent base bytes close) =
      (((stackRows indent base bytes).foldlM parseLine
        (inStack start.threads start.thread start.frame)).bind
          fun st => parseLine st close).map ParserState.threads := by
  rw [parseMinidumpTxtFile, text, List.foldlM_append, start.reads]
  congr 1
  have hcontents := parseLine_contentsLine indent
    (inStack start.threads start.thread start.frame).threads
  simp only [Option.bind_eq_bind, Option.bind_some, List.foldlM_cons, inStack] at hcontents ⊢
  rw [hcontents, Option.bind_some, List.foldlM_append]
  simp only [List.foldlM_cons, List.foldlM_nil, Option.bind_eq_bind, bind_pure]

/-- Rows that the parser gets through are read exactly if they make the frame that of the
dump, and the line behind them is a proper header if it looks like one. -/
theorem DumpStart.readsExactly_iff_of_rows (start : DumpStart) {indent : ℕ} {base : BitVec 64}
    {bytes : List UInt8} {close : TextLine} (hclose : NoHexLine close) {frame : ConvertorFrame}
    (hrows : (stackRows indent base bytes).foldlM parseLine
      (inStack start.threads start.thread start.frame) =
        some (inStack start.threads start.thread frame)) :
    start.ReadsExactly indent base bytes close ↔ HeaderIfThread close ∧
      frame = { start.frame with stackBaseAddr := (base.toNat : ℤ), stack := bytes } := by
  rw [ReadsExactly, parse_text, hrows, Option.bind_some]
  constructor
  · rintro ⟨threads, hparse, hframe⟩
    obtain ⟨st, hline, rfl⟩ := Option.map_eq_some_iff.mp hparse
    have hheader := headerIfThread_of_parseLine hline
    obtain ⟨st', hline', hkept⟩ :=
      parseLine_noHexLine hclose hheader start.threads start.thread frame
    rw [hline] at hline'
    cases hline'
    exact ⟨hheader, Option.some.inj (hkept.symm.trans hframe)⟩
  · rintro ⟨hheader, rfl⟩
    obtain ⟨st, hline, hframe⟩ := parseLine_noHexLine hclose hheader start.threads start.thread
      { start.frame with stackBaseAddr := (base.toNat : ℤ), stack := bytes }
    rw [hline]
    exact ⟨st.threads, rfl, hframe⟩

/-- A dump with a row at zero is not read exactly: bytes are left out. -/
theorem DumpStart.not_readsExactly_of_zero (start : DumpStart) {indent : ℕ} {base : BitVec 64}
    {bytes : List UInt8} {close : TextLine} (hzero : ¬NoRowAtZero base bytes) :
    ¬start.ReadsExactly indent base bytes close := by
  rw [ReadsExactly, parse_text]
  rintro ⟨threads, hparse, hframe⟩
  obtain ⟨k, frame, hk, hstack, hstop⟩ :=
    run_stackRows_zero indent hzero start.threads start.thread start.frame
  rw [hstop, Option.bind_some] at hparse
  obtain ⟨st, hline, rfl⟩ := Option.map_eq_some_iff.mp hparse
  have hkept := parseLine_thread_frameAt hline (frameAt_concat start.threads start.thread frame)
  have hsame := congrArg ConvertorFrame.stack (Option.some.inj (hkept.symm.trans hframe))
  rw [hstack, start.noStack, List.nil_append] at hsame
  have hlength := congrArg List.length hsame
  rw [List.length_take] at hlength
  dsimp only at hlength
  omega

/-- A dump is read exactly if and only if it has a byte and no row at zero, the first words
of the ASCII column of a partial last row are no numbers, and the line behind it is a
proper header if it looks like one. -/
theorem DumpStart.readsExactly_iff (start : DumpStart) (indent : ℕ) {base : BitVec 64}
    (hbase : base ≠ 0) (bytes : List UInt8) {close : TextLine} (hclose : NoHexLine close) :
    start.ReadsExactly indent base bytes close ↔
      bytes ≠ [] ∧ NoRowAtZero base bytes ∧ HarmlessColumn (partialRow bytes) ∧
        HeaderIfThread close := by
  by_cases hbytes : bytes = []
  · have hrows : (stackRows indent base bytes).foldlM parseLine
        (inStack start.threads start.thread start.frame) =
          some (inStack start.threads start.thread start.frame) := by
      rw [stackRows, dif_pos hbytes]
      rfl
    refine iff_of_false (fun hreads => ?_) fun h => h.1 hbytes
    have hsame := ((start.readsExactly_iff_of_rows hclose hrows).mp hreads).2
    have hzero := congrArg ConvertorFrame.stackBaseAddr hsame
    rw [start.noBase] at hzero
    exact hbase (BitVec.toNat_inj.mp (Int.natCast_eq_zero.mp hzero.symm))
  by_cases hzero : NoRowAtZero base bytes
  swap
  · exact iff_of_false (start.not_readsExactly_of_zero hzero) fun h => hzero h.2.1
  have hharmless : appendBytes bytes ((columnTokens (partialRow bytes)).take
      (16 - (partialRow bytes).length)) = some bytes ↔ HarmlessColumn (partialRow bytes) :=
    appendBytes_eq_self_iff.trans (harmlessColumn_iff (length_partialRow_lt bytes))
  have hrun := run_stackRows indent hbytes hzero start.threads start.thread start.frame
  rw [start.noStack, List.nil_append] at hrun
  cases hs : appendBytes bytes ((columnTokens (partialRow bytes)).take
      (16 - (partialRow bytes).length)) with
  | none =>
    rw [hs] at hrun hharmless
    refine iff_of_false ?_ fun h => by cases hharmless.mpr h.2.2.1
    rw [ReadsExactly, parse_text, hrun]
    rintro ⟨threads, hparse, -⟩
    cases hparse
  | some s =>
    rw [hs] at hrun hharmless
    rw [start.readsExactly_iff_of_rows hclose hrun, ConvertorFrame.withRow_of_noBase start.noBase,
      ← hharmless]
    constructor
    · rintro ⟨hheader, hsame⟩
      exact ⟨hbytes, hzero, congrArg some (congrArg ConvertorFrame.stack hsame), hheader⟩
    · rintro ⟨-, -, hsame, hheader⟩
      rw [Option.some.inj hsame]
      exact ⟨hheader, rfl⟩

/-- A thread with one frame. -/
def oneFrame : DumpStart where
  lines := ["Thread 0 (crashed)\n".toList, " 0  main\n".toList,
    "    rip = 0x0000000000001000\n".toList, "    Found by: context\n".toList]
  threads := []
  thread := ⟨0, true, []⟩
  frame := ⟨0, "main", [0x1000], 0, []⟩
  reads := by decide
  noBase := rfl
  noStack := rfl

/-- The line that follows a stack dump in a text dump. -/
def pointersLine : TextLine := "    Possible instruction pointers:\n".toList

/-- A dump of seven bytes that is read exactly. -/
theorem DumpStart.readsExactly_iff_oneFrame :
    oneFrame.ReadsExactly 4 0x1000 [0x90, 0x2a, 0x40, 0x00, 0x12, 0x47, 0x21] pointersLine := by
  have hclose : NoHexLine pointersLine := ⟨"Possible".toList, rfl, rfl⟩
  refine (readsExactly_iff oneFrame 4 (by decide) _ hclose).mpr ⟨by decide, fun k hk => ?_, ?_, ?_⟩
  · obtain rfl : k = 0 := by
      simp only [List.length_cons, List.length_nil] at hk
      omega
    decide
  · decide
  · intro h
    exact absurd h (by decide)

/-- A dump of the bytes of `ab`: the characters are read as one more byte. -/
theorem DumpStart.not_readsExactly_ab :
    ¬oneFrame.ReadsExactly 4 0x1000 [0x61, 0x62] pointersLine := by
  rintro ⟨threads, hparse, hframe⟩
  have hrows : (stackRows 4 0x1000 [0x61, 0x62]).foldlM parseLine
      (inStack oneFrame.threads oneFrame.thread oneFrame.frame) =
        some (inStack oneFrame.threads oneFrame.thread
          ⟨0, "main", [0x1000], 0x1000, [0x61, 0x62, 0xab]⟩) := by
    rw [stackRows_of_ne_nil _ _ (by decide), List.drop_of_length_le (by decide), stackRows,
      dif_pos rfl]
    decide
  rw [parse_text, hrows] at hparse
  have hthreads : [⟨0, true, [⟨0, "main", [0x1000], 0x1000, [0x61, 0x62, 0xab]⟩]⟩] = threads :=
    Option.some.inj hparse
  rw [← hthreads] at hframe
  exact absurd hframe (by decide)

end DwarfExpr
