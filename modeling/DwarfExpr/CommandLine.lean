import DwarfExpr.Libdwarf
import DwarfExpr.Lib.NumberText

/-!
# The command line of dwarf2line

`main` compares each argument with its options and takes any other one for an address, which
`std::stoul` reads to base 16. All options but the long ones are a hyphen and a letter, and
`std::stoul` allows a hyphen in front of a number: an argument like `-a`, which is no option,
is an address.
-/

namespace DwarfExpr

open NumberText (digitValue splitSign)

/-- What `std::stoul` answers: a number, or which exception it throws. -/
inductive StoulAnswer where
  | value (n : BitVec 64)
  | invalidArgument
  | outOfRange
  deriving DecidableEq, Repr

/-- The characters that `strtoul` skips in front of a number. -/
def isCSpace (c : Char) : Bool := c.toNat ∈ [0x09, 0x0a, 0x0b, 0x0c, 0x0d, 0x20]

/-- A digit to base 16. -/
def isHexDigit (c : Char) : Bool := (digitValue 16 c).isSome

/-- Drop a prefix `0x` in front of a digit. -/
def dropHexPrefix : List Char → List Char
  | '0' :: x :: c :: rest =>
    if (x = 'x' ∨ x = 'X') ∧ isHexDigit c then c :: rest else '0' :: x :: c :: rest
  | text => text

/-- The number that the digits denote. -/
def hexValue (digits : List Char) : ℕ :=
  digits.foldl (fun n c => 16 * n + (digitValue 16 c).getD 0) 0

/-- `std::stoul(arg, 0, 16)`: what follows the digits is not looked at, and a number behind a
minus sign is negated as an unsigned one. -/
def stoul (arg : List Char) : StoulAnswer :=
  let (negative, text) := splitSign (arg.dropWhile isCSpace)
  let digits := (dropHexPrefix text).takeWhile isHexDigit
  if digits = [] then .invalidArgument
  else if hexValue digits < 2 ^ 64 then
    .value (if negative then -BitVec.ofNat 64 (hexValue digits)
      else BitVec.ofNat 64 (hexValue digits))
  else .outOfRange

/-- A digit is no blank and no sign. -/
theorem special_of_isHexDigit {c : Char} (hc : isHexDigit c = true) :
    isCSpace c = false ∧ c ≠ '-' ∧ c ≠ '+' := by
  have hspecial : ∀ n ∈ [0x09, 0x0a, 0x0b, 0x0c, 0x0d, 0x20],
      isHexDigit (Char.ofNat n) = false := by
    decide
  refine ⟨?_, ?_, ?_⟩
  · rw [Bool.eq_false_iff]
    intro hspace
    have hno := hspecial c.toNat (of_decide_eq_true hspace)
    rw [Char.ofNat_toNat, hc] at hno
    cases hno
  · rintro rfl
    exact absurd hc (by decide)
  · rintro rfl
    exact absurd hc (by decide)

/-- A text in which a number is found: what stands in front of its digits, and what follows
them. Behind a zero there is no prefix that has been overlooked. -/
structure AddressText where
  blanks : List Char
  sign : List Char
  hexPrefix : List Char
  digits : List Char
  rest : List Char
  isBlanks : ∀ c ∈ blanks, isCSpace c = true
  isSign : sign ∈ [[], ['-'], ['+']]
  isPrefix : hexPrefix ∈ [[], ['0', 'x'], ['0', 'X']]
  isDigits : ∀ c ∈ digits, isHexDigit c = true
  nonempty : digits ≠ []
  stops : ∀ c ∈ rest.head?, isHexDigit c = false
  noPrefix : hexPrefix = [] → digits = ['0'] → ∀ x c back, rest = x :: c :: back →
    x = 'x' ∨ x = 'X' → isHexDigit c = false

/-- The whole text. -/
def AddressText.text (t : AddressText) : List Char :=
  t.blanks ++ (t.sign ++ (t.hexPrefix ++ (t.digits ++ t.rest)))

/-- The number of its digits. -/
def AddressText.number (t : AddressText) : ℕ := hexValue t.digits

/-- The address: the number, negated behind a minus sign. -/
def AddressText.address (t : AddressText) : DwarfAddr :=
  if t.sign = ['-'] then -BitVec.ofNat 64 t.number else .ofNat 64 t.number

/-- What follows the sign begins with a digit, for a prefix does so as well. -/
theorem AddressText.exists_digit (t : AddressText) :
    ∃ c back, t.hexPrefix ++ (t.digits ++ t.rest) = c :: back ∧ isHexDigit c = true := by
  have hprefix := t.isPrefix
  simp only [List.mem_cons, List.not_mem_nil, or_false] at hprefix
  rcases hprefix with h | h | h
  · obtain ⟨c, back, hdigits⟩ := List.exists_cons_of_ne_nil t.nonempty
    exact ⟨c, back ++ t.rest, by rw [h, hdigits]; rfl, t.isDigits c (by simp [hdigits])⟩
  · exact ⟨'0', 'x' :: (t.digits ++ t.rest), by rw [h]; rfl, by decide⟩
  · exact ⟨'0', 'X' :: (t.digits ++ t.rest), by rw [h]; rfl, by decide⟩

/-- The sign is split off. -/
theorem AddressText.splitSign_eq (t : AddressText) :
    splitSign (t.sign ++ (t.hexPrefix ++ (t.digits ++ t.rest))) =
      (decide (t.sign = ['-']), t.hexPrefix ++ (t.digits ++ t.rest)) := by
  obtain ⟨c, back, hbody, hc⟩ := t.exists_digit
  have hsign := t.isSign
  simp only [List.mem_cons, List.not_mem_nil, or_false] at hsign
  rcases hsign with h | h | h
  · rw [h, List.nil_append, NumberText.splitSign_eq_self]
    · rfl
    · rw [hbody]
      rintro d ⟨⟩
      exact (special_of_isHexDigit hc).2
  · rw [h]
    rfl
  · rw [h]
    rfl

/-- A prefix is dropped in front of a digit. -/
theorem dropHexPrefix_cons {x c : Char} (hx : x = 'x' ∨ x = 'X') (hc : isHexDigit c = true)
    (back : List Char) : dropHexPrefix ('0' :: x :: c :: back) = c :: back := by
  rw [dropHexPrefix, if_pos ⟨hx, hc⟩]

/-- The prefix is dropped, and nothing else. -/
theorem AddressText.dropHexPrefix_eq (t : AddressText) :
    dropHexPrefix (t.hexPrefix ++ (t.digits ++ t.rest)) = t.digits ++ t.rest := by
  obtain ⟨c, back, hdigits⟩ := List.exists_cons_of_ne_nil t.nonempty
  have hc : isHexDigit c = true := t.isDigits c (by simp [hdigits])
  have hprefix := t.isPrefix
  simp only [List.mem_cons, List.not_mem_nil, or_false] at hprefix
  rcases hprefix with h | h | h
  · rw [h, List.nil_append]
    unfold dropHexPrefix
    split
    · next x d back' heq =>
      rw [if_neg, heq]
      rintro ⟨hx, hd⟩
      -- The letter is no digit, so the only digit is the zero in front of it.
      have hletter : isHexDigit x = false := by
        rcases hx with rfl | rfl <;> decide
      rw [hdigits, List.cons_append] at heq
      obtain ⟨hzero, htail⟩ := List.cons.inj heq
      have hback : back = [] := by
        cases back with
        | nil => rfl
        | cons y more =>
          obtain ⟨rfl, -⟩ := List.cons.inj htail
          rw [t.isDigits y (by simp [hdigits])] at hletter
          cases hletter
      rw [hback, List.nil_append] at htail
      have hsingle : t.digits = ['0'] := by rw [hdigits, hback, hzero]
      rw [t.noPrefix h hsingle x d back' htail hx] at hd
      cases hd
    · rfl
  · rw [h, hdigits]
    exact dropHexPrefix_cons (Or.inl rfl) hc _
  · rw [h, hdigits]
    exact dropHexPrefix_cons (Or.inr rfl) hc _

/-- `std::stoul` reads the number of a text. -/
theorem AddressText.stoul_text (t : AddressText) :
    stoul t.text = if t.number < 2 ^ 64 then .value t.address else .outOfRange := by
  obtain ⟨c, back, hbody, hc⟩ := t.exists_digit
  have hblanks : t.text.dropWhile isCSpace =
      t.sign ++ (t.hexPrefix ++ (t.digits ++ t.rest)) := by
    rw [text, List.dropWhile_append_of_pos t.isBlanks]
    have hsign := t.isSign
    simp only [List.mem_cons, List.not_mem_nil, or_false] at hsign
    rcases hsign with h | h | h
    · rw [h, List.nil_append, hbody,
        List.dropWhile_cons_of_neg (by simp [(special_of_isHexDigit hc).1])]
    · rw [h]
      exact List.dropWhile_cons_of_neg (by decide)
    · rw [h]
      exact List.dropWhile_cons_of_neg (by decide)
  have hdigits : (t.digits ++ t.rest).takeWhile isHexDigit = t.digits := by
    rw [List.takeWhile_append_of_pos t.isDigits]
    cases hrest : t.rest with
    | nil => simp
    | cons d more =>
      have hd := t.stops d (by simp [hrest])
      rw [List.takeWhile_cons_of_neg (by simp [hd]), List.append_nil]
  unfold stoul
  rw [hblanks, t.splitSign_eq]
  simp only [t.dropHexPrefix_eq, hdigits, if_neg t.nonempty, decide_eq_true_eq]
  rfl

/-- A text is a sign, if it has one, and what follows it. -/
theorem exists_sign (text : List Char) :
    ∃ sign ∈ [[], ['-'], ['+']], text = sign ++ (splitSign text).2 := by
  unfold splitSign
  split
  · exact ⟨['-'], by simp, rfl⟩
  · exact ⟨['+'], by simp, rfl⟩
  · exact ⟨[], by simp, rfl⟩

/-- A text is a prefix, if a digit follows one, and what follows it. -/
theorem exists_hexPrefix (text : List Char) :
    ∃ hexPrefix ∈ [[], ['0', 'x'], ['0', 'X']], text = hexPrefix ++ dropHexPrefix text ∧
      (hexPrefix = [] → ∀ x c back, text = '0' :: x :: c :: back → x = 'x' ∨ x = 'X' →
        isHexDigit c = false) := by
  by_cases hprefixed : ∃ x c back, text = '0' :: x :: c :: back ∧ (x = 'x' ∨ x = 'X') ∧
      isHexDigit c = true
  · obtain ⟨x, c, back, rfl, hx, hc⟩ := hprefixed
    rw [dropHexPrefix_cons hx hc]
    refine ⟨['0', x], ?_, rfl, fun h => by cases h⟩
    rcases hx with rfl | rfl <;> simp
  · have hno : ∀ x c back, text = '0' :: x :: c :: back → x = 'x' ∨ x = 'X' →
        isHexDigit c = false := fun x c back htext hx => by
      by_contra hc
      exact hprefixed ⟨x, c, back, htext, hx, by simpa using hc⟩
    refine ⟨[], by simp, ?_, fun _ => hno⟩
    unfold dropHexPrefix
    split
    · next x c back =>
      rw [if_neg fun h => by rw [hno x c back rfl h.1] at h; cases h.2]
      rfl
    · rfl

/-- `std::stoul` finds a number only in such a text. -/
theorem exists_addressText {arg : List Char} (hread : stoul arg ≠ .invalidArgument) :
    ∃ t : AddressText, t.text = arg := by
  obtain ⟨sign, hsign, hsplit⟩ := exists_sign (arg.dropWhile isCSpace)
  obtain ⟨hexPrefix, hprefix, hdrop, hno⟩ := exists_hexPrefix (splitSign (arg.dropWhile isCSpace)).2
  have hdigits :
      (dropHexPrefix (splitSign (arg.dropWhile isCSpace)).2).takeWhile isHexDigit ≠ [] := by
    intro hnone
    apply hread
    unfold stoul
    exact if_pos hnone
  generalize dropHexPrefix (splitSign (arg.dropWhile isCSpace)).2 = number at hdrop hdigits
  generalize (splitSign (arg.dropWhile isCSpace)).2 = body at hdrop hno hsplit
  have hnumber : number.takeWhile isHexDigit ++ number.dropWhile isHexDigit = number :=
    List.takeWhile_append_dropWhile
  refine ⟨{
    blanks := arg.takeWhile isCSpace
    sign := sign
    hexPrefix := hexPrefix
    digits := number.takeWhile isHexDigit
    rest := number.dropWhile isHexDigit
    isBlanks := fun c hc => List.mem_takeWhile_imp hc
    isSign := hsign
    isPrefix := hprefix
    isDigits := fun c hc => List.mem_takeWhile_imp hc
    nonempty := hdigits
    stops := ?_
    noPrefix := ?_ }, ?_⟩
  · intro c hc
    have hhead := List.head?_dropWhile_not isHexDigit number
    rw [Option.mem_def.mp hc] at hhead
    simpa using hhead
  · rintro rfl hzero x c back hrest hx
    rw [hzero, hrest] at hnumber
    exact hno rfl x c back (by rw [hdrop, ← hnumber]; rfl) hx
  · simp only [AddressText.text, hnumber]
    rw [← hdrop, ← hsplit, List.takeWhile_append_dropWhile]

/-- The options of `main`. -/
inductive CommandOption where
  | exe | context | frames | locals | params | functions | demangle | verbose | help
  deriving DecidableEq, Repr

/-- The comparisons of an argument in the loop of `main`, in their order. -/
def commandOption (arg : List Char) : Option CommandOption :=
  if arg = "-e".toList ∨ arg = "--exe".toList then some .exe
  else if arg = "-c".toList ∨ arg = "--context".toList then some .context
  else if arg = "-F".toList ∨ arg = "--frames".toList then some .frames
  else if arg = "-l".toList ∨ arg = "--locals".toList then some .locals
  else if arg = "-p".toList ∨ arg = "--params".toList then some .params
  else if arg = "-f".toList ∨ arg = "--functions".toList then some .functions
  else if arg = "-C".toList ∨ arg = "--demangle".toList then some .demangle
  else if arg = "-v".toList ∨ arg = "--verbose".toList then some .verbose
  else if arg = "-h".toList ∨ arg = "--help".toList then some .help
  else none

/-- The local variables of `main` that the arguments set. -/
structure CommandArgs where
  input : List Char
  ctxFile : List Char
  evalValue : Bool
  printFuncName : Bool
  demangle : Bool
  showLocals : Bool
  showParams : Bool
  printCfi : Bool
  debug : Bool
  addresses : List DwarfAddr
  deriving DecidableEq, Repr

/-- Their values before the loop. -/
def CommandArgs.init : CommandArgs :=
  ⟨[], [], false, false, false, false, false, false, false, []⟩

/-- How the loop over the arguments ends. -/
inductive ArgsOutcome where
  /-- All arguments have been read. -/
  | parsed (args : CommandArgs)
  /-- The usage is printed and 0 returned. -/
  | usage
  /-- A `std::string` is assigned from the null pointer behind the last argument. -/
  | nullString
  /-- An exception of `std::stoul` that nothing catches. -/
  | invalidArgument
  | outOfRange
  deriving DecidableEq, Repr

/-- The loop of `main` over its arguments. -/
def parseArgs (args : CommandArgs) : List (List Char) → ArgsOutcome
  | [] => .parsed args
  | arg :: rest =>
    match commandOption arg with
    | some .exe =>
      match rest with
      | [] => .nullString
      | value :: rest => parseArgs { args with input := value } rest
    | some .context =>
      match rest with
      | [] => .nullString
      | value :: rest =>
        parseArgs { args with
          ctxFile := value, evalValue := true, showLocals := true, showParams := true } rest
    | some .frames => parseArgs { args with printCfi := true } rest
    | some .locals => parseArgs { args with showLocals := true } rest
    | some .params => parseArgs { args with showParams := true } rest
    | some .functions => parseArgs { args with printFuncName := true } rest
    | some .demangle => parseArgs { args with demangle := true } rest
    | some .verbose => parseArgs { args with debug := true } rest
    | some .help => .usage
    | none =>
      match stoul arg with
      | .value addr => parseArgs { args with addresses := args.addresses ++ [addr] } rest
      | .invalidArgument => .invalidArgument
      | .outOfRange => .outOfRange

/-- How an option is written. -/
def CommandOption.spelling : CommandOption → Bool → List Char
  | exe, long => if long then "--exe".toList else "-e".toList
  | context, long => if long then "--context".toList else "-c".toList
  | frames, long => if long then "--frames".toList else "-F".toList
  | locals, long => if long then "--locals".toList else "-l".toList
  | params, long => if long then "--params".toList else "-p".toList
  | functions, long => if long then "--functions".toList else "-f".toList
  | demangle, long => if long then "--demangle".toList else "-C".toList
  | verbose, long => if long then "--verbose".toList else "-v".toList
  | help, long => if long then "--help".toList else "-h".toList

/-- A spelling is taken for its option. -/
@[simp] theorem commandOption_spelling (o : CommandOption) (long : Bool) :
    commandOption (o.spelling long) = some o := by
  cases o <;> cases long <;> decide

/-- Nothing else is taken for an option. -/
theorem commandOption_eq_some_iff {arg : List Char} {o : CommandOption} :
    commandOption arg = some o ↔ ∃ long, arg = o.spelling long := by
  constructor
  · intro h
    unfold commandOption at h
    split_ifs at h with hexe hcontext hframes hlocals hparams hfunctions hdemangle hverbose hhelp
    all_goals obtain rfl := Option.some.inj h
    · exact hexe.elim (⟨false, ·⟩) (⟨true, ·⟩)
    · exact hcontext.elim (⟨false, ·⟩) (⟨true, ·⟩)
    · exact hframes.elim (⟨false, ·⟩) (⟨true, ·⟩)
    · exact hlocals.elim (⟨false, ·⟩) (⟨true, ·⟩)
    · exact hparams.elim (⟨false, ·⟩) (⟨true, ·⟩)
    · exact hfunctions.elim (⟨false, ·⟩) (⟨true, ·⟩)
    · exact hdemangle.elim (⟨false, ·⟩) (⟨true, ·⟩)
    · exact hverbose.elim (⟨false, ·⟩) (⟨true, ·⟩)
    · exact hhelp.elim (⟨false, ·⟩) (⟨true, ·⟩)
  · rintro ⟨long, rfl⟩
    exact commandOption_spelling o long

/-- The argument is no option. -/
def IsNoOption (arg : List Char) : Prop := ∀ o long, arg ≠ CommandOption.spelling o long

/-- What is no option is compared in vain. -/
theorem commandOption_eq_none_iff {arg : List Char} :
    commandOption arg = none ↔ IsNoOption arg := by
  constructor
  · rintro h o long rfl
    rw [commandOption_spelling] at h
    cases h
  · intro h
    cases ho : commandOption arg with
    | none => rfl
    | some o =>
      obtain ⟨long, rfl⟩ := commandOption_eq_some_iff.mp ho
      exact absurd rfl (h o long)

/-- The options that only set a flag. -/
def CommandOption.isFlag : CommandOption → Bool
  | exe | context | help => false
  | _ => true

/-- A part of a command line that is read whole. -/
inductive CommandItem where
  | exe (long : Bool) (value : List Char)
  | context (long : Bool) (value : List Char)
  | flag (o : CommandOption) (long : Bool) (isFlag : o.isFlag = true)
  | address (t : AddressText) (noOption : IsNoOption t.text) (fits : t.number < 2 ^ 64)

/-- The arguments of a part. -/
def CommandItem.args : CommandItem → List (List Char)
  | exe long value => [CommandOption.exe.spelling long, value]
  | context long value => [CommandOption.context.spelling long, value]
  | flag o long _ => [o.spelling long]
  | address t _ _ => [t.text]

/-- The executable that a part names. -/
def CommandItem.exeValue : CommandItem → Option (List Char)
  | exe _ value => some value
  | _ => none

/-- The context file that a part names. -/
def CommandItem.contextValue : CommandItem → Option (List Char)
  | context _ value => some value
  | _ => none

/-- The address that a part is. -/
def CommandItem.addressValue : CommandItem → Option DwarfAddr
  | address t _ _ => some t.address
  | _ => none

/-- A part gives the option. -/
def CommandItem.gives (o : CommandOption) : CommandItem → Bool
  | exe _ _ => o = .exe
  | context _ _ => o = .context
  | flag o' _ _ => o = o'
  | address _ _ _ => false

/-- What the parts of a command line say, in whatever order: the last file of each kind counts,
a context file asks for locals and parameters as well, and the addresses are taken in their
order. -/
def CommandArgs.ofItems (items : List CommandItem) : CommandArgs where
  input := (items.filterMap CommandItem.exeValue).getLast?.getD []
  ctxFile := (items.filterMap CommandItem.contextValue).getLast?.getD []
  evalValue := items.any (CommandItem.gives .context)
  printFuncName := items.any (CommandItem.gives .functions)
  demangle := items.any (CommandItem.gives .demangle)
  showLocals := items.any (CommandItem.gives .context) || items.any (CommandItem.gives .locals)
  showParams := items.any (CommandItem.gives .context) || items.any (CommandItem.gives .params)
  printCfi := items.any (CommandItem.gives .frames)
  debug := items.any (CommandItem.gives .verbose)
  addresses := items.filterMap CommandItem.addressValue

/-- Where reading a command line comes to its end: behind all arguments, at the option for
help, at an option without its value, or at an argument that is no address. -/
inductive CommandEnd where
  | done
  | help (long : Bool) (rest : List (List Char))
  | noExe (long : Bool)
  | noContext (long : Bool)
  | noNumber (arg : List Char) (noOption : IsNoOption arg)
      (noText : ∀ t : AddressText, t.text ≠ arg)
      (rest : List (List Char))
  | tooLarge (t : AddressText) (noOption : IsNoOption t.text) (large : 2 ^ 64 ≤ t.number)
      (rest : List (List Char))

/-- The arguments from there on. -/
def CommandEnd.args : CommandEnd → List (List Char)
  | done => []
  | help long rest => CommandOption.help.spelling long :: rest
  | noExe long => [CommandOption.exe.spelling long]
  | noContext long => [CommandOption.context.spelling long]
  | noNumber arg _ _ rest => arg :: rest
  | tooLarge t _ _ rest => t.text :: rest

/-- How the loop ends there. -/
def CommandEnd.outcome (args : CommandArgs) : CommandEnd → ArgsOutcome
  | done => .parsed args
  | help _ _ => .usage
  | noExe _ | noContext _ => .nullString
  | noNumber _ _ _ _ => .invalidArgument
  | tooLarge _ _ _ _ => .outOfRange

/-- What the loop notes of one part. -/
def CommandArgs.note (args : CommandArgs) : CommandItem → CommandArgs
  | .exe _ value => { args with input := value }
  | .context _ value =>
    { args with ctxFile := value, evalValue := true, showLocals := true, showParams := true }
  | .flag o _ _ =>
    { args with
      printFuncName := args.printFuncName || o = .functions
      demangle := args.demangle || o = .demangle
      showLocals := args.showLocals || o = .locals
      showParams := args.showParams || o = .params
      printCfi := args.printCfi || o = .frames
      debug := args.debug || o = .verbose }
  | .address t _ _ => { args with addresses := args.addresses ++ [t.address] }

/-- One part is read whole. -/
theorem parseArgs_item (args : CommandArgs) (i : CommandItem) (rest : List (List Char)) :
    parseArgs args (i.args ++ rest) = parseArgs (args.note i) rest := by
  cases i with
  | exe long value | context long value => simp [CommandItem.args, parseArgs, CommandArgs.note]
  | flag o long isFlag =>
    rw [CommandItem.args, List.singleton_append]
    conv_lhs => unfold parseArgs
    rw [commandOption_spelling]
    cases o with
    | exe | context | help => cases isFlag
    | _ => simp [CommandArgs.note]
  | address t noOption fits =>
    have hstoul := t.stoul_text
    rw [if_pos fits] at hstoul
    rw [CommandItem.args, List.singleton_append]
    conv_lhs => unfold parseArgs
    rw [commandOption_eq_none_iff.mpr noOption]
    simp only [hstoul, CommandArgs.note]

/-- What has been noted is what the parts say together. -/
theorem CommandArgs.ofItems_concat (items : List CommandItem) (i : CommandItem) :
    ofItems (items ++ [i]) = (ofItems items).note i := by
  cases i with
  | flag o long isFlag =>
    cases o with
    | exe | context | help => cases isFlag
    | _ =>
      simp [ofItems, note, CommandItem.exeValue, CommandItem.contextValue,
        CommandItem.addressValue, CommandItem.gives, List.filterMap_cons]
  | _ =>
    simp [ofItems, note, CommandItem.exeValue, CommandItem.contextValue,
      CommandItem.addressValue, CommandItem.gives, List.filterMap_cons]

/-- The parts of a command line are read one after the other. -/
theorem parseArgs_items (before items : List CommandItem) (rest : List (List Char)) :
    parseArgs (.ofItems before) (items.flatMap CommandItem.args ++ rest) =
      parseArgs (.ofItems (before ++ items)) rest := by
  induction items generalizing before with
  | nil => simp
  | cons i items ih =>
    rw [List.flatMap_cons, List.append_assoc, parseArgs_item, ← CommandArgs.ofItems_concat, ih,
      List.append_assoc]
    rfl

/-- The loop ends where the parts end. -/
theorem parseArgs_end (args : CommandArgs) (e : CommandEnd) :
    parseArgs args e.args = e.outcome args := by
  cases e with
  | done => rfl
  | noExe | noContext => simp [CommandEnd.args, parseArgs, CommandEnd.outcome]
  | help =>
    rw [CommandEnd.args]
    unfold parseArgs
    rw [commandOption_spelling]
    rfl
  | noNumber arg noOption noText rest =>
    have hstoul : stoul arg = .invalidArgument := by
      by_contra hread
      obtain ⟨t, ht⟩ := exists_addressText hread
      exact noText t ht
    rw [CommandEnd.args]
    unfold parseArgs
    rw [commandOption_eq_none_iff.mpr noOption]
    simp only [hstoul, CommandEnd.outcome]
  | tooLarge t noOption large rest =>
    have hstoul := t.stoul_text
    rw [if_neg (Nat.not_lt.mpr large)] at hstoul
    rw [CommandEnd.args]
    unfold parseArgs
    rw [commandOption_eq_none_iff.mpr noOption]
    simp only [hstoul, CommandEnd.outcome]

/-- Every command line consists of parts and such an end. Induction on the number of its
arguments, by what the first is taken for. -/
theorem exists_items (arguments : List (List Char)) :
    ∃ (items : List CommandItem) (e : CommandEnd),
      arguments = items.flatMap CommandItem.args ++ e.args := by
  induction hlength : arguments.length using Nat.strongRecOn generalizing arguments with
  | _ n ih =>
    subst hlength
    have hcons (i : CommandItem) {rest : List (List Char)} (heq : arguments = i.args ++ rest)
        (hshorter : rest.length < arguments.length) :
        ∃ (items : List CommandItem) (e : CommandEnd),
          arguments = items.flatMap CommandItem.args ++ e.args := by
      obtain ⟨items, e, hrest⟩ := ih rest.length hshorter rest rfl
      refine ⟨i :: items, e, ?_⟩
      rw [List.flatMap_cons, List.append_assoc, ← hrest, heq]
    cases arguments with
    | nil => exact ⟨[], .done, rfl⟩
    | cons arg rest =>
      cases ho : commandOption arg with
      | some o =>
        obtain ⟨long, rfl⟩ := commandOption_eq_some_iff.mp ho
        cases o with
        | exe =>
          cases rest with
          | nil => exact ⟨[], .noExe long, rfl⟩
          | cons value rest =>
            apply hcons (.exe long value) rfl
            simp only [List.length_cons]
            omega
        | context =>
          cases rest with
          | nil => exact ⟨[], .noContext long, rfl⟩
          | cons value rest =>
            apply hcons (.context long value) rfl
            simp only [List.length_cons]
            omega
        | help => exact ⟨[], .help long rest, rfl⟩
        | _ => exact hcons (.flag _ long rfl) rfl (by simp)
      | none =>
        have hno := commandOption_eq_none_iff.mp ho
        by_cases htext : ∃ t : AddressText, t.text = arg
        · obtain ⟨t, rfl⟩ := htext
          by_cases hfits : t.number < 2 ^ 64
          · exact hcons (.address t hno hfits) rfl (by simp)
          · exact ⟨[], .tooLarge t hno (Nat.le_of_not_lt hfits) rest, rfl⟩
        · exact ⟨[], .noNumber arg hno (fun t ht => htext ⟨t, ht⟩) rest, rfl⟩

/-- How `main` reads its arguments: they consist of parts and an end, in one way as far as the
result goes, and the loop ends as the end says, with what the parts say in whatever order. -/
theorem parseArgs_eq_iff (arguments : List (List Char)) (outcome : ArgsOutcome) :
    parseArgs .init arguments = outcome ↔
      ∃ (items : List CommandItem) (e : CommandEnd),
        arguments = items.flatMap CommandItem.args ++ e.args ∧
          outcome = e.outcome (.ofItems items) := by
  have hread (items : List CommandItem) (e : CommandEnd) :
      parseArgs .init (items.flatMap CommandItem.args ++ e.args) = e.outcome (.ofItems items) := by
    have h := parseArgs_items [] items e.args
    rw [List.nil_append, parseArgs_end] at h
    exact h
  constructor
  · rintro rfl
    obtain ⟨items, e, rfl⟩ := exists_items arguments
    exact ⟨items, e, rfl, hread items e⟩
  · rintro ⟨items, e, rfl, rfl⟩
    exact hread items e

/-- Options are not joined: `-fC` is taken for an address, and so is an unknown `-a`. -/
example : parseArgs .init ["-e".toList, "a.out".toList, "-fC".toList, "-a".toList] =
    .parsed { CommandArgs.init with input := "a.out".toList, addresses := [-0xfc, -0xa] } := by
  decide

end DwarfExpr
