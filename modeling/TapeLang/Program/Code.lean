/-
# The code of nodes

Each node of the tree has its code, given the offset at which that code begins: a loop goes to
absolute positions of its unit. The amount of a node is added or subtracted as one constant,
whatever its size, so equal runs have code of equal length.

A loop tests the cell under the pointer first, and its end goes back to that test:

loadPointer; loadCell; jumpZero end; body; loop start; end:

The offsets hang on the sizes that an instruction set gives to the instructions.
-/
import TapeLang.Bytecode.Assembly
import TapeLang.Program

namespace TapeLang.Node

/-- The size of an amount, as a constant. -/
def amount (delta : Int) : Instruction :=
  .constant (Word.ofInt 4 (if delta < 0 then -delta else delta)).toUInt32

/-- Adds or subtracts the size of an amount. -/
def change (delta : Int) : Instruction :=
  if delta < 0 then .sub else .add

/-- The handle of a procedure. -/
def handle (id : Int) : Instruction :=
  .procedure (Word.ofInt 4 id).toUInt32

/-- The code of a node that holds no others. -/
def leafCode : Node → Array Instruction
  | move delta => #[.loadPointer, amount delta, change delta, .storePointer]
  | amend delta =>
    let load := #[.loadPointer, .loadPointer, .loadCell]
    load ++ #[amount delta, change delta, .storeScratch, .loadScratch, .storeCell]
  | read => #[.loadPointer, .read, .storeCell]
  | write => #[.loadPointer, .loadCell, .write]
  | zero => #[.loadPointer, .constant 0, .storeCell]
  | register id => #[.loadPointer, .loadCell, handle id, .register]
  | call => #[.loadPointer, .loadCell, .lookup, .invoke]
  | _ => #[]

/-- The test before the body of a loop, which leaves the loop for a position of the unit. -/
def loopTest (target : Nat) : Array Instruction :=
  #[.loadPointer, .loadCell, .jumpZero target.toUInt32]

/-- The way back after the body of a loop. -/
def loopBack (distance : Nat) : Array Instruction := #[.loop distance.toUInt32]

/-- The bytes before the body of a loop. -/
def loopHead (set : InstructionSet) : Nat :=
  set.sizes (loopTest 0)

/-- The bytes after the body of a loop. -/
def loopTail (set : InstructionSet) : Nat :=
  set.sizes (loopBack 0)

mutual

/-- The code of a node that begins at offset `base`. -/
def code (set : InstructionSet) (base : Nat) : Node → Array Instruction
  | sequence body => codeAll set base body
  | loop body =>
    let inner := codeAll set (base + loopHead set) body
    let distance := loopHead set + set.sizes inner
    loopTest (base + distance + loopTail set) ++ inner ++ loopBack distance
  | leaf => leaf.leafCode

/-- The code of nodes, the first of which begins at offset `base`. -/
def codeAll (set : InstructionSet) (base : Nat) : List Node → Array Instruction
  | [] => #[]
  | node :: rest =>
    let first := node.code set base
    first ++ codeAll set (base + set.sizes first) rest

end

end TapeLang.Node
