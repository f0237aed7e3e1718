/-
# Instructions

An instruction is an opcode with its operand. Its bytes are the opcode and the operand's field,
which keeps the low bytes of the operand if it is shorter; an instruction is fetched from a unit of
code by reading the byte at a position and the operand after it.
-/
import TapeLang.Bytecode.Opcode
import TapeLang.Bytecode.Operands

namespace TapeLang

/-- A unit of code: instructions one after another, as bytes. -/
abbrev Code : Type :=
  Array UInt8

/-- The instructions of the machine. -/
inductive Instruction where
  /-- Allocates the tape. -/
  | newTape (size : UInt32)
  /-- Makes an empty dispatch table. -/
  | newTable
  /-- Pushes the pointer. -/
  | loadPointer
  /-- Pops the pointer. -/
  | storePointer
  /-- Pops an index and pushes that cell. -/
  | loadCell
  /-- Pops a value, then an index, and sets that cell. -/
  | storeCell
  /-- Pushes the scratch cell. -/
  | loadScratch
  /-- Pops the scratch cell. -/
  | storeScratch
  /-- Pushes a constant. -/
  | constant (value : UInt32)
  /-- Pops two values and pushes their sum. -/
  | add
  /-- Pops two values and pushes the lower one less the upper one. -/
  | sub
  /-- Pushes a character from the host. -/
  | read
  /-- Pops a character and hands it to the host. -/
  | write
  /-- Pops a value and goes to a position of the unit if it is zero. -/
  | jumpZero (target : UInt32)
  /-- Goes back by a distance, counted from its own position. -/
  | loop (distance : UInt32)
  /-- Pushes the handle of a procedure. -/
  | procedure (id : UInt32)
  /-- Pops a handle, then a key, and binds the key to the handle. -/
  | register
  /-- Pops a key and pushes the handle bound to it. -/
  | lookup
  /-- Pops a handle and calls that procedure. -/
  | invoke
  /-- Returns to the caller. -/
  | leave
  /-- Pops the result and ends the run. -/
  | returnValue
deriving DecidableEq, Repr

namespace Instruction

/-- The opcode of an instruction. -/
def opcode : Instruction → Opcode
  | newTape _ => .newTape
  | newTable => .newTable
  | loadPointer => .loadPointer
  | storePointer => .storePointer
  | loadCell => .loadCell
  | storeCell => .storeCell
  | loadScratch => .loadScratch
  | storeScratch => .storeScratch
  | constant _ => .constant
  | add => .add
  | sub => .sub
  | read => .read
  | write => .write
  | jumpZero _ => .jumpZero
  | loop _ => .loop
  | procedure _ => .procedure
  | register => .register
  | lookup => .lookup
  | invoke => .invoke
  | leave => .leave
  | returnValue => .returnValue

/-- The operands of an instruction. -/
def operands : Instruction → List Int
  | newTape n | constant n | jumpZero n | loop n | procedure n => [n.toNat]
  | _ => []

/-- The bytes of an instruction. -/
def encode (i : Instruction) : List UInt8 :=
  i.opcode.toByte :: Operands.fields i.opcode.widths i.operands

/-- The number of bytes of an instruction. -/
def size (i : Instruction) : Nat :=
  1 + Operands.total i.opcode.widths

@[simp] theorem length_encode (i : Instruction) : i.encode.length = i.size := by
  simp [encode, size, Nat.add_comm]

/-! ## Fetching -/

/-- The four-byte number at a position. -/
def word32At? (code : Code) (position : Nat) : Option UInt32 :=
  match code[position]?, code[position + 1]?, code[position + 2]?, code[position + 3]? with
  | some a, some b, some c, some d =>
    some (((a.toNat * 256 + b.toNat) * 256 + c.toNat) * 256 + d.toNat).toUInt32
  | _, _, _, _ => none

/-- The two-byte number at a position. -/
def word16At? (code : Code) (position : Nat) : Option UInt32 :=
  match code[position]?, code[position + 1]? with
  | some a, some b => some (a.toNat * 256 + b.toNat).toUInt32
  | _, _ => none

/-- The instruction of an opcode whose operand, if it has one, stands at a position; none if the
operand runs past the end of the unit. -/
def withOperandAt? (code : Code) (position : Nat) : Opcode → Option Instruction
  | .newTape => (word32At? code position).map newTape
  | .newTable => some newTable
  | .loadPointer => some loadPointer
  | .storePointer => some storePointer
  | .loadCell => some loadCell
  | .storeCell => some storeCell
  | .loadScratch => some loadScratch
  | .storeScratch => some storeScratch
  | .constant => (word32At? code position).map constant
  | .add => some add
  | .sub => some sub
  | .read => some read
  | .write => some write
  | .jumpZero => (word32At? code position).map jumpZero
  | .loop => (word32At? code position).map loop
  | .procedure => (word16At? code position).map procedure
  | .register => some register
  | .lookup => some lookup
  | .invoke => some invoke
  | .leave => some leave
  | .returnValue => some returnValue

end Instruction

end TapeLang
