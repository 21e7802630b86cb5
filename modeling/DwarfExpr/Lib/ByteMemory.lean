import DwarfExpr.Lib.LittleEndian

/-!
# Byte-addressed memory

A memory has a byte at every address and answers requests for a number of bytes, or
refuses them. An answer is made of exactly the bytes asked for. That a part of an answered
request is answered too does not follow: it holds for a memory that is made of cells, and has to
be assumed of others.
-/

/-- A memory with addresses of `w` bits: its bytes, and the requests that it answers. -/
structure ByteMemory (w : ℕ) where
  byte : BitVec w → UInt8
  answers : BitVec w → ℕ → Bool

namespace ByteMemory

variable {w : ℕ} {memory : ByteMemory w} {addr : BitVec w} {m n : ℕ} {buf : List UInt8}

/-- The bytes from an address on. Addresses wrap around. -/
def bytes (memory : ByteMemory w) (addr : BitVec w) (n : ℕ) : List UInt8 :=
  (List.range n).map fun i => memory.byte (addr + .ofNat w i)

/-- The answer to a request. -/
def read (memory : ByteMemory w) (addr : BitVec w) (n : ℕ) : Option (List UInt8) :=
  if memory.answers addr n then some (memory.bytes addr n) else none

/-- A memory in which some addresses have no byte answers the requests for those that do. -/
def ofCells (cells : BitVec w → Option UInt8) : ByteMemory w where
  byte addr := (cells addr).getD 0
  answers addr n := (List.range n).all fun i => (cells (addr + .ofNat w i)).isSome

/-- A memory that is made of cells answers the parts of what it answers. -/
theorem answers_ofCells_of_le {cells : BitVec w → Option UInt8} (hmn : m ≤ n)
    (hanswers : (ofCells cells).answers addr n = true) :
    (ofCells cells).answers addr m = true := by
  simp only [ofCells, List.all_eq_true] at hanswers ⊢
  intro i hi
  have hlt := List.mem_range.mp hi
  exact hanswers i (List.mem_range.mpr (by omega))

/-- As many bytes as asked for. -/
@[simp] theorem length_bytes (memory : ByteMemory w) (addr : BitVec w) (n : ℕ) :
    (memory.bytes addr n).length = n := by
  rw [bytes, List.length_map, List.length_range]

/-- The bytes of a shorter request are the first ones of a longer. -/
theorem take_bytes (hmn : m ≤ n) : (memory.bytes addr n).take m = memory.bytes addr m := by
  rw [bytes, bytes, ← List.map_take, List.take_range, Nat.min_eq_left hmn]

/-- The bytes as a number. -/
theorem decode_bytes (memory : ByteMemory w) (addr : BitVec w) (n : ℕ) :
    LittleEndian.decode (memory.bytes addr n) =
      ∑ i ∈ Finset.range n, (memory.byte (addr + .ofNat w i)).toNat * 256 ^ i :=
  LittleEndian.decode_map_range _ n

/-- An answer is made of the bytes asked for. -/
theorem read_eq_some_iff :
    memory.read addr n = some buf ↔ memory.answers addr n = true ∧ buf = memory.bytes addr n := by
  rw [read, Option.ite_some_none_eq_some, eq_comm (a := buf)]

end ByteMemory
