import Mathlib.Data.Int.Notation
import DwarfExpr.Lib.Fuel
import DwarfExpr.Libdwarf

/-!
# DWARF expressions and what they are evaluated in

The data of `DwarfExpression` and `DwarfLocation`: operations as libdwarf decodes
them, location lists, the providers of a context, and the results of an
evaluation. A provider that is a null `std::function` is `none`.
-/

namespace DwarfExpr

/-- The operations whose first operand is pushed as it stands. -/
inductive ConstKind where
  | addr | const1u | const1s | const2u | const2s | const4u | const4s | const8u | const8s
  | constu | consts
  deriving DecidableEq, Repr

/-- The operations on the top entry. -/
inductive UnaryKind where
  | abs | neg | not | plusUconst
  deriving DecidableEq, Repr

/-- The operations on the top two entries. -/
inductive BinaryKind where
  | and | div | minus | mod | mul | or | plus | shl | shr | shra | xor
  deriving DecidableEq, Repr

/-- The comparisons of the top two entries. -/
inductive CompareKind where
  | le | ge | eq | lt | gt | ne
  deriving DecidableEq, Repr

/-- Operations that libdwarf can name and `evaluate` does not implement: those that
the source lists, and all others. -/
inductive MissingKind where
  | xderef | xderefSize | pushObjectAddress | formTlsAddress | call2 | call4 | callRef
  | implicitValue | piece | bitPiece | other
  deriving DecidableEq, Repr

/-- The codes with a register or a literal in them come in groups of 32. -/
instance neZero_groupSize : @NeZero ℕ Zero.ofOfNat0 32 := Nat.instNeZeroSucc

/-- The operation codes, grouped as the `switch` of `evaluate` groups them. An
`unnamed` code is one for which `dwarf_get_OP_name` fails. -/
inductive Opcode where
  | reg (n : Fin 32) | regx
  | lit (n : Fin 32) | const (kind : ConstKind)
  | fbreg | breg (n : Fin 32) | bregx
  | dup | drop | pick | over | swap | rot
  | deref | derefSize | callFrameCfa
  | unary (kind : UnaryKind) | binary (kind : BinaryKind) | compare (kind : CompareKind)
  | skip | bra | nop | stackValue
  | missing (kind : MissingKind) | unnamed
  deriving DecidableEq, Repr

/-- `DwarfOp`. -/
structure DwarfOp where
  opcode : Opcode
  op1 : DwarfUnsigned := 0
  op2 : DwarfUnsigned := 0
  op3 : DwarfUnsigned := 0
  off : DwarfUnsigned
  deriving DecidableEq, Repr

/-- `DwarfExpression`: the list `ops_`. -/
structure DwarfExpression where
  ops : List DwarfOp
  deriving DecidableEq, Repr

/-- `DwarfExpression::findOpIndexByOffset`; `none` is the answer `-1`. -/
def DwarfExpression.findOpIndexByOffset (expr : DwarfExpression) (off : DwarfUnsigned) :
    Option ℕ :=
  expr.ops.findIdx? fun a => a.off = off

/-- `DwarfLocation::LocationExpression`. -/
structure LocationExpression where
  lowAddr : DwarfAddr
  highAddr : DwarfAddr
  expr : DwarfExpression
  deriving DecidableEq, Repr

/-- `DwarfLocation`: the list `exprs_`. -/
structure DwarfLocation where
  exprs : List LocationExpression
  deriving DecidableEq, Repr

/-- `DwarfExpression::ErrorCode` without the codes that no result carries. -/
inductive ErrorCode where
  | memoryInvalid | registerInvalid | frameBaseInvalid | illegalState | illegalOp
  | illegalOpd | stackIndexInvalid | cfaInvalid | notImplemented | addressInvalid
  deriving DecidableEq, Repr

/-- `DwarfExpression::Result`, by the three functions that build one. -/
inductive EvalResult where
  | error (errorCode : ErrorCode) (errorAddr : BitVec 64)
  | value (value : DwarfAddr)
  | address (value : DwarfAddr)
  deriving DecidableEq, Repr

/-- `Result::valid` together with `Result::value`. -/
def EvalResult.validValue : EvalResult → Option DwarfAddr
  | error _ _ => none
  | value v => some v
  | address v => some v

/-- What the language leaves undefined: reading or popping an empty stack, a division
by zero or out of range, a shift by a count outside `0..63`, a call through a null
provider, and any of these while the frame base or the CFA is computed. -/
inductive Undefined where
  | emptyStack | division | shiftCount | nullProvider
  | inFrameBase (cause : Undefined)
  | inCfa (cause : Undefined)
  deriving DecidableEq, Repr

/-- What has happened in the innermost computation. -/
def Undefined.root : Undefined → Undefined
  | inFrameBase cause => cause.root
  | inCfa cause => cause.root
  | cause => cause

/-- A call under a bound on its work: `none` if it has not returned within the bound. -/
abbrev Bounded (α : Type*) := Fuel.Bounded Undefined α

/-- `RegisterProvider`: the value of a register, `none` for a call that returns `false`. -/
abbrev RegisterProvider := ℤ → Option (BitVec 64)

/-- `MemoryProvider`: the buffer for an address and a size, `none` for a call that
returns `false`. -/
abbrev MemoryProvider := BitVec 64 → ℕ → Option (List UInt8)

/-- `CfaProvider`. The provider may itself evaluate expressions. -/
abbrev CfaProvider := DwarfAddr → Bounded DwarfAddr

/-- `DwarfExpression::Context`. -/
structure Context where
  cuLowAddr : DwarfAddr
  cuHighAddr : DwarfAddr
  frameBaseLoc : Option DwarfLocation
  registers : Option RegisterProvider
  memory : Option MemoryProvider
  cfa : Option CfaProvider

/-- A context without any provider. -/
def emptyContext : Context := ⟨0, 0, none, none, none, none⟩

/-- A context in which every register is known, and its value is its number. -/
def registersContext : Context :=
  { emptyContext with registers := some fun n => some (.ofInt 64 n) }

/-- A context in which every provider answers: the frame base is the CFA. -/
def framedContext : Context :=
  { registersContext with
    frameBaseLoc := some ⟨[⟨0, maxDwarfUnsigned, ⟨[{ opcode := .callFrameCfa, off := 0 }]⟩⟩]⟩
    memory := some fun _ size => some (List.replicate size 0)
    cfa := some fun _ => some (.ok 0x7000) }

end DwarfExpr
