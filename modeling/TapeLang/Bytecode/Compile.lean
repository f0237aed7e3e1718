/-
# Compiling programs

A program is compiled to a main unit and one unit for each procedure. A node has no code if it is a
procedure that stands inside the tree, or registers a procedure whose number does not fit;
procedures must stand at the places of their numbers. Of several reasons the one that comes first in
the order of the code is reported.

Programs are compiled for the standard instruction set. With another one, which is of use for
listings, there may be instructions that can not be made.
-/
import TapeLang.Program.Draft

namespace TapeLang

/-- Why a program has no code. -/
inductive CompileError where
  /-- A procedure's number does not fit its field. -/
  | tooManyProcedures (id : Int)
  /-- A procedure stands inside the tree. -/
  | unknownNode (node : Node)
  /-- A procedure does not stand at the place of its number. -/
  | outOfOrder (id : Int)
  /-- The instruction set does not allow an instruction. -/
  | unmade (opcode : Opcode)
deriving Repr

namespace CompileError

/-- How the error is reported. The number of procedures that would be needed is a signed 64-bit
number. -/
def message : CompileError → String
  | tooManyProcedures id => "too many procedures: " ++ Decimal.text (Word.wrap (id + 1))
  | unknownNode node => "unknown node: " ++ node.text
  | outOfOrder id => "procedure " ++ Decimal.text id ++ " compiled out of order"
  | unmade opcode => "no instruction " ++ opcode.name ++ " can be made"

end CompileError

namespace InstructionSet

/-- Looks for an instruction that can not be made. -/
def check (set : InstructionSet) (code : Array Instruction) : Except CompileError Unit :=
  match code.find? fun i => !set.takes i with
  | some i => .error (.unmade i.opcode)
  | none => .ok ()

/-- In the standard set every instruction can be made. -/
@[simp] theorem check_standard (code : Array Instruction) : standard.check code = .ok () := by
  have none : (code.find? fun i => !standard.takes i) = none := Array.find?_eq_none.2 (by simp)
  unfold check
  rw [none]

end InstructionSet

namespace Node

/-! ## Which nodes have code -/

/-- The largest number of a procedure. -/
def lastProcedure : Int := 0xffff

mutual

/-- The first reason why a node has no code, in the order of the code. -/
def check (set : InstructionSet) : Node → Except CompileError Unit
  | sequence body => checkAll set body
  | loop body => do
    set.check (loopTest 0)
    checkAll set body
    set.check (loopBack 0)
  | register id =>
    if lastProcedure < id then .error (.tooManyProcedures id) else set.check (register id).leafCode
  | procedure id body => .error (.unknownNode (.procedure id body))
  | leaf => set.check leaf.leafCode

/-- The first reason why one of the nodes has no code. -/
def checkAll (set : InstructionSet) : List Node → Except CompileError Unit
  | [] => .ok ()
  | node :: rest => do
    node.check set
    checkAll set rest

end

/-- The bytes of a node on its own. -/
def compile (node : Node) : Except CompileError Code := do
  node.check .standard
  return InstructionSet.standard.assemble (node.draft .standard {}).code

end Node

namespace Program

/-- The number of cells a program allocates. -/
def tapeSize : UInt32 := 30000

/-- What a program does before its main body: it makes the tape, sets the pointer to its first cell,
and makes a dispatch table if it needs one. -/
def prologue (p : Program) : Array Instruction :=
  let start := #[.newTape tapeSize, .constant 0, .storePointer]
  if p.dispatches then start.push .newTable else start

/-- What a program does after its main body: its result is the cell under the pointer. -/
def epilogue : Array Instruction := #[.loadPointer, .loadCell, .returnValue]

/-- The main unit of a program. -/
def mainCode (set : InstructionSet) (p : Program) : Array Instruction :=
  let start : Node.Draft := { code := p.prologue, offset := set.sizes p.prologue }
  (Node.draftAll set start p.main).code ++ epilogue

theorem mainCode_eq (set : InstructionSet) (p : Program) :
    p.mainCode set = p.prologue ++ Node.codeAll set (set.sizes p.prologue) p.main ++ epilogue := by
  simp [mainCode, Node.draftAll_eq_add, Node.Draft.add]

/-- The unit of a procedure. -/
def procedureCode (set : InstructionSet) (q : Procedure) : Array Instruction :=
  (Node.draftAll set {} q.body).code ++ #[.leave]

theorem procedureCode_eq (set : InstructionSet) (q : Procedure) :
    procedureCode set q = Node.codeAll set 0 q.body ++ #[.leave] := by
  simp [procedureCode, Node.draftAll_eq_add, Node.Draft.add]

/-- The first reason why there is no main unit. -/
def checkMain (set : InstructionSet) (p : Program) : Except CompileError Unit := do
  set.check p.prologue
  Node.checkAll set p.main
  set.check epilogue

/-- The first reason why one of the procedures has no unit, given the number that is next. -/
def checkProcedures (set : InstructionSet) (next : Int) : List Procedure → Except CompileError Unit
  | [] => .ok ()
  | q :: rest =>
    if q.id ≠ next then .error (.outOfOrder q.id)
    else do
      Node.checkAll set q.body
      set.check #[.leave]
      checkProcedures set (next + 1) rest

/-- The bytecode of a program for an instruction set. -/
def compileFor (set : InstructionSet) (p : Program) : Except CompileError Bytecode := do
  p.checkMain set
  checkProcedures set 0 p.procedures
  return {
    main := set.assemble (p.mainCode set)
    procedures := (p.procedures.map fun q => set.assemble (procedureCode set q)).toArray }

/-- The bytecode of a program. -/
def compile (p : Program) : Except CompileError Bytecode :=
  p.compileFor .standard

end Program

end TapeLang
