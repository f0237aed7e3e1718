/-
# Opcodes

Every instruction begins with one byte that says what it does, and some carry operands after it. An
opcode's definition gives its name and the widths of its operands in bytes. An instruction set
assigns definitions to bytes; the standard one has twenty-one of them.
-/

namespace TapeLang

/-- The name of an opcode and the widths of its operands, which are the distances from each operand
to what follows it. -/
structure Definition where
  name : String
  widths : List Int
deriving DecidableEq, Repr

/-- The operations of the machine. -/
inductive Opcode where
  | newTape
  | newTable
  | loadPointer
  | storePointer
  | loadCell
  | storeCell
  | loadScratch
  | storeScratch
  | constant
  | add
  | sub
  | read
  | write
  | jumpZero
  | loop
  | procedure
  | register
  | lookup
  | invoke
  | leave
  | returnValue
deriving DecidableEq, Repr

namespace Opcode

/-- The byte of an opcode. -/
def toByte : Opcode → UInt8
  | newTape => 0
  | newTable => 1
  | loadPointer => 2
  | storePointer => 3
  | loadCell => 4
  | storeCell => 5
  | loadScratch => 6
  | storeScratch => 7
  | constant => 8
  | add => 9
  | sub => 10
  | read => 11
  | write => 12
  | jumpZero => 13
  | loop => 14
  | procedure => 15
  | register => 16
  | lookup => 17
  | invoke => 18
  | leave => 19
  | returnValue => 20

/-- The opcode of a byte; the other bytes have none. -/
def ofByte? : UInt8 → Option Opcode
  | 0 => some newTape
  | 1 => some newTable
  | 2 => some loadPointer
  | 3 => some storePointer
  | 4 => some loadCell
  | 5 => some storeCell
  | 6 => some loadScratch
  | 7 => some storeScratch
  | 8 => some constant
  | 9 => some add
  | 10 => some sub
  | 11 => some read
  | 12 => some write
  | 13 => some jumpZero
  | 14 => some loop
  | 15 => some procedure
  | 16 => some register
  | 17 => some lookup
  | 18 => some invoke
  | 19 => some leave
  | 20 => some returnValue
  | _ => none

@[simp] theorem ofByte?_toByte (op : Opcode) : ofByte? op.toByte = some op := by
  cases op <;> rfl

/-- The name of an opcode in listings. -/
def name : Opcode → String
  | newTape => "OpNewTape"
  | newTable => "OpNewTable"
  | loadPointer => "OpLoadPointer"
  | storePointer => "OpStorePointer"
  | loadCell => "OpLoadCell"
  | storeCell => "OpStoreCell"
  | loadScratch => "OpLoadScratch"
  | storeScratch => "OpStoreScratch"
  | constant => "OpConstant"
  | add => "OpAdd"
  | sub => "OpSub"
  | read => "OpRead"
  | write => "OpWrite"
  | jumpZero => "OpJumpZero"
  | loop => "OpLoop"
  | procedure => "OpProcedure"
  | register => "OpRegister"
  | lookup => "OpLookup"
  | invoke => "OpInvoke"
  | leave => "OpReturn"
  | returnValue => "OpReturnValue"

/-- The widths of an opcode's operands. -/
def widths : Opcode → List Nat
  | newTape | constant | jumpZero | loop => [4]
  | procedure => [2]
  | _ => []

/-- The definition of an opcode. -/
def definition (op : Opcode) : Definition :=
  { name := op.name, widths := op.widths.map Int.ofNat }

end Opcode

/-- An assignment of definitions to bytes. -/
def InstructionSet : Type :=
  UInt8 → Option Definition

namespace InstructionSet

/-- The instruction set of the machine. -/
def standard : InstructionSet :=
  fun b => (Opcode.ofByte? b).map Opcode.definition

/-- An instruction set in which one byte has another definition. -/
def define (set : InstructionSet) (opcode : UInt8) (definition : Definition) : InstructionSet :=
  fun b => if b = opcode then some definition else set b

@[simp] theorem standard_toByte (op : Opcode) : standard op.toByte = some op.definition := by
  simp [standard]

/-- What is said about a byte without a definition. -/
def undefinedText (opcode : UInt8) : String :=
  "opcode " ++ opcode.toNat.repr ++ " undefined"

end InstructionSet

end TapeLang
