import DwarfExpr.ExpressionEffects
import DwarfExpr.Lib.ByteMemory

/-!
# Memory reads of the expression machine

`DW_OP_deref` reads eight bytes through `readMemory`, which reports a failed read by the
value `MAX_DWARF_SIGNED`; memory that holds this value is taken for unreadable.
`DW_OP_deref_size` asks the provider itself and has no such value. On a byte-addressed
memory it is the truncation of `DW_OP_deref`, but it may fail where `DW_OP_deref` succeeds: it
asks for fewer bytes, and a provider may answer more bytes and not fewer.
-/

namespace DwarfExpr

/-- The memory provider delivers these eight bytes for the address. -/
def ReadsWord (context : Context) (adr : BitVec 64) (buf : List UInt8) : Prop :=
  ∃ memory, context.memory = some memory ∧ memory adr 8 = some buf ∧ buf.length = 8

/-- There is no memory provider, or it answers `false` or with another size than eight. -/
def ReadFails (context : Context) (adr : BitVec 64) : Prop :=
  context.memory = none ∨ ∃ memory, context.memory = some memory ∧
    (memory adr 8 = none ∨ ∃ buf, memory adr 8 = some buf ∧ buf.length ≠ 8)

/-- `DW_OP_deref` in the state `s` with the address on top fails exactly if the read fails,
and otherwise replaces the address by the value read. -/
structure DerefExact (context : Context) (pc : DwarfAddr) (expr : DwarfExpression)
    (s : EvalState) (a : DwarfOp) (adr : BitVec 64) (rest : EvalStack) : Prop where
  fails_iff : ∀ fuel, (∃ stack, evalStepAt fuel context pc expr s =
    .halt (.ok (.error .memoryInvalid a.off, stack))) ↔ ReadFails context adr
  value : ∀ fuel buf, ReadsWord context adr buf →
    evalStepAt fuel context pc expr s =
      .next ⟨s.i + 1, a.off, .ofNat 64 (LittleEndian.decode buf) :: rest⟩

section

variable {context : Context} {pc : DwarfAddr} {expr : DwarfExpression}
  {frameBase : Bounded EvalResult} {a : DwarfOp} {adr : BitVec 64} {rest : EvalStack}
  {buf : List UInt8}

/-- A read that does not fail delivers eight bytes. -/
theorem readFails_or_readsWord (context : Context) (adr : BitVec 64) :
    ReadFails context adr ∨ ∃ buf, ReadsWord context adr buf := by
  cases hmemory : context.memory with
  | none => exact Or.inl (Or.inl hmemory)
  | some memory =>
    cases hbuf : memory adr 8 with
    | none => exact Or.inl (Or.inr ⟨memory, hmemory, Or.inl hbuf⟩)
    | some buf =>
      by_cases hlength : buf.length = 8
      · exact Or.inr ⟨buf, memory, hmemory, hbuf, hlength⟩
      · exact Or.inl (Or.inr ⟨memory, hmemory, Or.inr ⟨buf, hbuf, hlength⟩⟩)

/-- After a failed read `DW_OP_deref` ends the evaluation. -/
theorem ReadFails.execOp_eq (hfails : ReadFails context adr) (hop : a.opcode = .deref) :
    ∃ stack, execOp context pc expr frameBase a (adr :: rest) =
      .finish (.error .memoryInvalid a.off) stack := by
  rcases hfails with hnone | ⟨memory, hmemory, hnone | ⟨buf, hbuf, hlength⟩⟩
  · exact ⟨adr :: rest, by simp only [execOp, hop, hnone]⟩
  · exact ⟨rest, by simp only [execOp, hop, hmemory, readMemory, hnone, if_true]⟩
  · exact ⟨rest, by simp only [execOp, hop, hmemory, readMemory, hbuf, if_neg hlength, if_true]⟩

/-- The value of eight bytes is the failure value only if they are its encoding. -/
theorem ofNat_decode_eq_maxDwarfSigned_iff (hlength : buf.length = 8) :
    BitVec.ofNat 64 (LittleEndian.decode buf) = maxDwarfSigned ↔
      LittleEndian.decode buf = 2 ^ 63 - 1 := by
  have hlt := LittleEndian.decode_lt buf
  rw [hlength] at hlt
  rw [← BitVec.toNat_inj, BitVec.toNat_ofNat, Nat.mod_eq_of_lt (by omega)]
  rfl

/-- `DW_OP_deref` compares the value that it has read with the failure value. -/
theorem ReadsWord.execOp_eq (hreads : ReadsWord context adr buf) (hop : a.opcode = .deref) :
    execOp context pc expr frameBase a (adr :: rest) =
      if LittleEndian.decode buf = 2 ^ 63 - 1 then .finish (.error .memoryInvalid a.off) rest
      else .goOn (.ofNat 64 (LittleEndian.decode buf) :: rest) := by
  obtain ⟨memory, hmemory, hbuf, hlength⟩ := hreads
  simp only [execOp, hop, hmemory, readMemory, hbuf, if_pos hlength,
    ofNat_decode_eq_maxDwarfSigned_iff hlength]

end

/-- `DW_OP_deref` fails exactly if the read fails, and gives the value read otherwise, exactly
if the value read is not `MAX_DWARF_SIGNED`. -/
theorem evaluate_deref_iff {context : Context} {pc : DwarfAddr} {expr : DwarfExpression}
    {s : EvalState} {a : DwarfOp} {adr : BitVec 64} {rest : EvalStack}
    (ha : expr.ops[s.i]? = some a) (hop : a.opcode = .deref) (hstack : s.stack = adr :: rest) :
    DerefExact context pc expr s a adr rest ↔
      ∀ buf, ReadsWord context adr buf → LittleEndian.decode buf ≠ 2 ^ 63 - 1 := by
  have hstep (fuel : ℕ) : evalStepAt fuel context pc expr s =
      (execOp context pc expr (frameBaseAt fuel context pc) a (adr :: rest)).advance
        expr s.i a := by
    rw [evalStepAt, evalStep_of_getElem ha, hstack]
  constructor
  · intro hexact buf hreads hlimit
    have hvalue := hexact.value 0 buf hreads
    rw [hstep, hreads.execOp_eq hop, if_pos hlimit] at hvalue
    cases hvalue
  · intro hother
    have hnext (fuel : ℕ) {buf : List UInt8} (hreads : ReadsWord context adr buf) :
        evalStepAt fuel context pc expr s =
          .next ⟨s.i + 1, a.off, .ofNat 64 (LittleEndian.decode buf) :: rest⟩ := by
      rw [hstep, hreads.execOp_eq hop, if_neg (hother buf hreads)]
      rfl
    refine ⟨fun fuel => ⟨?_, ?_⟩, fun fuel buf hreads => hnext fuel hreads⟩
    · rintro ⟨stack, hhalt⟩
      rcases readFails_or_readsWord context adr with hfails | ⟨buf, hreads⟩
      · exact hfails
      · rw [hnext fuel hreads] at hhalt
        cases hhalt
    · intro hfails
      obtain ⟨stack, hexec⟩ := @ReadFails.execOp_eq context pc expr
        (frameBaseAt fuel context pc) a adr rest hfails hop
      refine ⟨stack, ?_⟩
      rw [hstep, hexec]
      rfl

/-- A context whose memory answers every request of eight bytes with the given ones. -/
def wordContext (buf : List UInt8) : Context :=
  { emptyContext with memory := some fun _ n => if n = 8 then some buf else none }

/-- A read at address zero. -/
def derefZero : DwarfExpression := ⟨[⟨.lit 0, 0, 0, 0, 0⟩, ⟨.deref, 0, 0, 0, 1⟩]⟩

/-- The characterization at a word of zeros. -/
theorem evaluate_deref_iff_zeros :
    DerefExact (wordContext (List.replicate 8 0)) 0 derefZero ⟨1, 0, [0]⟩ ⟨.deref, 0, 0, 0, 1⟩ 0
        [] ↔
      ∀ buf, ReadsWord (wordContext (List.replicate 8 0)) 0 buf →
        LittleEndian.decode buf ≠ 2 ^ 63 - 1 :=
  evaluate_deref_iff rfl rfl rfl

/-- Memory that holds `MAX_DWARF_SIGNED` is reported as unreadable. -/
theorem evaluate_deref_limit :
    ReadsWord (wordContext [255, 255, 255, 255, 255, 255, 255, 127]) 0
        [255, 255, 255, 255, 255, 255, 255, 127] ∧
      evaluate 3 (wordContext [255, 255, 255, 255, 255, 255, 255, 127]) 0 derefZero [] =
        some (.ok (.error .memoryInvalid 1, [])) := by
  refine ⟨⟨_, rfl, rfl, rfl⟩, ?_⟩
  decide

/-- The value of the first `n` bytes of the memory at an address. -/
def byteSum (memory : ByteMemory 64) (adr : BitVec 64) (n : ℕ) : DwarfSigned :=
  .ofNat 64 (∑ i ∈ Finset.range n, (memory.byte (adr + .ofNat 64 i)).toNat * 256 ^ i)

/-- A `DW_OP_deref_size` that succeeds replaces the address by the value of its bytes, which is
the truncated value of a `DW_OP_deref` that succeeds; and it succeeds wherever `DW_OP_deref` does
if the provider answers its request when it answers the one of eight bytes. -/
structure DerefSizeExact (memory : ByteMemory 64) (context : Context) (pc : DwarfAddr)
    (expr : DwarfExpression) (frameBase : Bounded EvalResult) (a : DwarfOp) (adr : BitVec 64)
    (rest : EvalStack) : Prop where
  value : ∀ stack, execOp context pc expr frameBase a (adr :: rest) = .goOn stack →
    stack = byteSum memory adr a.op1.toNat :: rest
  agrees : ∀ d v stack stack', d.opcode = .deref →
    execOp context pc expr frameBase d (adr :: rest) = .goOn (v :: stack) →
      execOp context pc expr frameBase a (adr :: rest) = .goOn stack' →
        stack' = .ofNat 64 (v.toNat % 256 ^ a.op1.toNat) :: rest
  truncates : (memory.answers adr 8 = true → memory.answers adr a.op1.toNat = true) →
    ∀ d v stack, d.opcode = .deref →
      execOp context pc expr frameBase d (adr :: rest) = .goOn (v :: stack) →
        execOp context pc expr frameBase a (adr :: rest) =
          .goOn (.ofNat 64 (v.toNat % 256 ^ a.op1.toNat) :: rest)

section

variable {memory : ByteMemory 64} {context : Context} {pc : DwarfAddr} {expr : DwarfExpression}
  {frameBase : Bounded EvalResult} {a : DwarfOp} {adr : BitVec 64} {rest : EvalStack}
  {buf : List UInt8}

/-- `DW_OP_deref_size` with a size in range pushes the value of what it reads, and fails if the
read fails. -/
theorem execOp_derefSize_eq (hmemory : context.memory = some memory.read)
    (hop : a.opcode = .derefSize) (hpos : 0 < a.op1.toNat) (hle : a.op1.toNat ≤ 8) :
    execOp context pc expr frameBase a (adr :: rest) =
      match memory.read adr a.op1.toNat with
      | none => .finish (.error .memoryInvalid a.off) rest
      | some buf => .goOn (derefValue buf :: rest) := by
  have hsize : ¬(a.op1.toNat > 8 || a.op1 = 0) = true := by
    have hne : a.op1 ≠ 0 := by
      intro hzero
      rw [hzero] at hpos
      exact absurd hpos (by decide)
    rw [decide_eq_false (by omega), decide_eq_false hne]
    decide
  cases hread : memory.read adr a.op1.toNat <;>
    simp only [execOp, hop, hmemory, if_neg hsize, hread]

/-- The value of at most eight bytes of a byte-addressed memory. -/
theorem derefValue_bytes (memory : ByteMemory 64) (adr : BitVec 64) {n : ℕ} (hle : n ≤ 8) :
    derefValue (memory.bytes adr n) = byteSum memory adr n := by
  rw [derefValue, List.take_of_length_le (by rw [ByteMemory.length_bytes]; exact hle),
    ByteMemory.decode_bytes, byteSum]

/-- The value of fewer than eight bytes is that of eight, truncated. -/
theorem byteSum_eq_mod (memory : ByteMemory 64) (adr : BitVec 64) {n : ℕ} (hle : n ≤ 8) :
    byteSum memory adr n = .ofNat 64 ((byteSum memory adr 8).toNat % 256 ^ n) := by
  have hlt := LittleEndian.decode_lt (memory.bytes adr 8)
  rw [ByteMemory.length_bytes] at hlt
  rw [byteSum, byteSum, ← ByteMemory.decode_bytes, ← ByteMemory.decode_bytes,
    ← ByteMemory.take_bytes hle, LittleEndian.decode_take, BitVec.toNat_ofNat,
    Nat.mod_eq_of_lt (show LittleEndian.decode (memory.bytes adr 8) < 2 ^ 64 by omega)]

/-- Where `DW_OP_deref` succeeds the memory answers eight bytes, and pushes their value. -/
theorem answers_of_deref {v : DwarfSigned} {stack : EvalStack}
    (hmemory : context.memory = some memory.read) (hop : a.opcode = .deref)
    (hexec : execOp context pc expr frameBase a (adr :: rest) = .goOn (v :: stack)) :
    memory.answers adr 8 = true ∧ v = byteSum memory adr 8 := by
  rcases readFails_or_readsWord context adr with hfails | ⟨buf, hreads⟩
  · obtain ⟨left, hfinish⟩ := @ReadFails.execOp_eq context pc expr frameBase a adr rest hfails hop
    rw [hfinish] at hexec
    cases hexec
  · rw [hreads.execOp_eq hop] at hexec
    split at hexec
    · cases hexec
    · cases hexec
      obtain ⟨provider, hprovider, hbuf, -⟩ := hreads
      obtain rfl : memory.read = provider := Option.some.inj (hmemory.symm.trans hprovider)
      obtain ⟨hanswers, rfl⟩ := ByteMemory.read_eq_some_iff.mp hbuf
      exact ⟨hanswers, by rw [byteSum, ByteMemory.decode_bytes]⟩

end

/-- On a byte-addressed memory a `DW_OP_deref_size` of one to eight bytes that succeeds is the
zero-extended truncation of `DW_OP_deref`, and it succeeds with it if the memory answers the first
bytes of the eight that it answers. -/
theorem execOp_derefSize {memory : ByteMemory 64} {context : Context}
    (hmemory : context.memory = some memory.read) (pc : DwarfAddr) (expr : DwarfExpression)
    (frameBase : Bounded EvalResult) {a : DwarfOp} (hop : a.opcode = .derefSize)
    (hpos : 0 < a.op1.toNat) (hle : a.op1.toNat ≤ 8) (adr : BitVec 64) (rest : EvalStack) :
    DerefSizeExact memory context pc expr frameBase a adr rest := by
  have hvalue (stack : EvalStack)
      (hexec : execOp context pc expr frameBase a (adr :: rest) = .goOn stack) :
      stack = byteSum memory adr a.op1.toNat :: rest := by
    rw [execOp_derefSize_eq hmemory hop hpos hle] at hexec
    cases hread : memory.read adr a.op1.toNat with
    | none =>
      rw [hread] at hexec
      cases hexec
    | some buf =>
      obtain ⟨-, rfl⟩ := ByteMemory.read_eq_some_iff.mp hread
      rw [hread] at hexec
      cases hexec
      rw [derefValue_bytes memory adr hle]
  refine ⟨hvalue, ?_, ?_⟩
  · intro d v stack stack' hderef hexec hsize
    obtain ⟨-, rfl⟩ := answers_of_deref hmemory hderef hexec
    rw [hvalue stack' hsize, byteSum_eq_mod memory adr hle]
  · intro hshorter d v stack hderef hexec
    obtain ⟨hanswers, rfl⟩ := answers_of_deref hmemory hderef hexec
    have hread : memory.read adr a.op1.toNat = some (memory.bytes adr a.op1.toNat) :=
      ByteMemory.read_eq_some_iff.mpr ⟨hshorter hanswers, rfl⟩
    rw [execOp_derefSize_eq hmemory hop hpos hle, hread, ← byteSum_eq_mod memory adr hle,
      ← derefValue_bytes memory adr hle]

/-- A memory whose byte at an address is the low byte of the address, up to address 99. -/
def countingMemory : ByteMemory 64 :=
  .ofCells fun addr => if addr.toNat < 100 then some (.ofNat addr.toNat) else none

/-- The theorem at the two bytes at address seven. -/
theorem execOp_derefSize_counting :
    (countingMemory.answers 7 8 = true → countingMemory.answers 7 2 = true) ∧
      DerefSizeExact countingMemory { emptyContext with memory := some countingMemory.read } 0
        ⟨[]⟩ none ⟨.derefSize, 2, 0, 0, 0⟩ 7 [] :=
  ⟨ByteMemory.answers_ofCells_of_le (by decide),
    execOp_derefSize rfl 0 ⟨[]⟩ none rfl (by decide) (by decide) 7 []⟩

/-- A memory of zeros that answers requests of eight bytes and no others. -/
def wordMemory : ByteMemory 64 := ⟨fun _ => 0, fun _ n => n == 8⟩

/-- Where `DW_OP_deref` succeeds, `DW_OP_deref_size` of four bytes may fail. -/
theorem execOp_derefSize_wordMemory :
    (∀ addr n buf, wordMemory.read addr n = some buf → buf = wordMemory.bytes addr n) ∧
      execOp { emptyContext with memory := some wordMemory.read } 0 ⟨[]⟩ none
        ⟨.deref, 0, 0, 0, 0⟩ [7] = .goOn [0] ∧
      execOp { emptyContext with memory := some wordMemory.read } 0 ⟨[]⟩ none
        ⟨.derefSize, 4, 0, 0, 0⟩ [7] = .finish (.error .memoryInvalid 0) [] := by
  refine ⟨fun addr n buf hread => (ByteMemory.read_eq_some_iff.mp hread).2, ?_, ?_⟩
  · decide
  · decide

end DwarfExpr
