/-
# Bytecode

A compiled program: the unit of code that runs first, and one unit for each procedure. Units are
listed one instruction a line, with the offset, the name and the operand.
-/
import TapeLang.Bytecode.Instruction
import TapeLang.Text.Colour

namespace TapeLang

/-- A compiled program: its main unit, and the units of its procedures by their numbers. -/
structure Bytecode where
  main : Code
  procedures : Array Code := #[]
deriving DecidableEq, Repr

namespace InstructionSet

/-- The bytes of an instruction given by its opcode and operands: none at all for an opcode that is
not defined, and no answer when the opcode can not have these operands. -/
def make (set : InstructionSet) (opcode : UInt8) (operands : List Int) : Option (List UInt8) :=
  match set opcode with
  | none => some []
  | some definition => Operands.encode? opcode definition.widths operands

/-- Whether an instruction can be made. -/
def takes (set : InstructionSet) (i : Instruction) : Bool :=
  (set.make i.opcode.toByte i.operands).isSome

/-- The bytes of an instruction; none if it can not be made. -/
def encode (set : InstructionSet) (i : Instruction) : List UInt8 :=
  (set.make i.opcode.toByte i.operands).getD []

/-- The number of bytes of an instruction. -/
def size (set : InstructionSet) (i : Instruction) : Nat :=
  match set i.opcode.toByte with
  | none => 0
  | some definition => (Operands.size definition.widths).toNat

/-- An instruction that can be made has its size. -/
theorem length_encode {set : InstructionSet} {i : Instruction} (h : set.takes i = true) :
    (set.encode i).length = set.size i := by
  obtain ⟨bytes, made⟩ := Option.isSome_iff_exists.1 h
  rw [encode, made, Option.getD_some, size]
  rw [make] at made
  split at made
  · cases made
    rfl
  · exact Operands.length_of_encode? made

/-- The bytes of an instruction are those made from its opcode and operands. -/
theorem make_standard (i : Instruction) :
    standard.make i.opcode.toByte i.operands = some i.encode := by
  have small : ((1 + Operands.total i.opcode.widths : Nat) : Int) ≤ Operands.longest := by
    cases i.opcode <;> decide
  have given : i.operands.length ≤ i.opcode.widths.length := by
    cases i <;> exact Nat.le_refl _
  rw [make, standard_toByte]
  exact (Operands.encode?_natural _ _ _ small).trans (if_pos given)

@[simp] theorem takes_standard (i : Instruction) : standard.takes i = true := by
  simp [takes, make_standard]

@[simp] theorem encode_standard (i : Instruction) : standard.encode i = i.encode := by
  simp [encode, make_standard]

@[simp] theorem size_standard (i : Instruction) : standard.size i = i.size := by
  rw [← length_encode (takes_standard i), encode_standard, Instruction.length_encode]

end InstructionSet

/-! ## Listings -/

namespace Definition

/-- The line of an instruction with the given operands. Only instructions without operands or with
one operand are listed; the text for any other ends its line itself. -/
def line (d : Definition) (operands : List Int) : String :=
  if operands.length = d.widths.length then
    match operands with
    | [] => d.name
    | [operand] => d.name ++ " " ++ Decimal.text operand
    | _ => "ERROR: unhandled operandCount for " ++ d.name ++ "\n"
  else
    "ERROR: operand len " ++ operands.length.repr ++ " does not match defined " ++
      d.widths.length.repr ++ "\n"

end Definition

namespace InstructionSet

/-- Appends the listing of a unit from a position on, of no more than `lines` lines, to a text. A
byte without a definition has a line of its own; an operand beyond the ends leaves no listing at
all, and neither does an instruction before the first byte, to which a definition that leads
backwards may come. -/
def listFrom (set : InstructionSet) (colour : Bool) (code : Code) (lines : Nat) (out : String)
    (position : Int) : Except Operands.Overrun String :=
  if position < 0 then .error (.index position code.size)
  else
    match lines, code[position.toNat]? with
    | _, none => .ok out
    | 0, _ => .ok out
    | lines + 1, some b =>
      match set b with
      | none =>
        listFrom set colour code lines (out ++ "ERROR: " ++ undefinedText b ++ "\n") (position + 1)
      | some definition =>
        match Operands.read definition.widths code (position.toNat + 1) with
        | .error overrun => .error overrun
        | .ok (operands, size) =>
          let offset := Colour.yellow.paint colour (Decimal.padded 4 position)
          let line := definition.line (operands.map Int.ofNat)
          listFrom set colour code lines (out ++ offset ++ " " ++ line ++ "\n")
            (Word.wrap (position + 1 + size))

/-- The listing of a unit. It has no more lines than the unit has bytes: one that comes back to a
position would never end. -/
def list (set : InstructionSet) (colour : Bool) (code : Code) : Except Operands.Overrun String :=
  set.listFrom colour code code.size "" 0

/-- The listing of a unit among others: a unit that can not be listed shows why instead. -/
def listUnit (set : InstructionSet) (colour : Bool) (code : Code) : String :=
  match set.list colour code with
  | .ok text => text
  | .error overrun => "%!s(PANIC=String method: runtime error: " ++ overrun.message ++ ")"

end InstructionSet

namespace Bytecode

/-- The listing of a program: each unit after a line that names it. -/
def list (set : InstructionSet) (colour : Bool) (b : Bytecode) : String :=
  let main := Colour.cyan.paint colour "main:" ++ "\n" ++ set.listUnit colour b.main
  b.procedures.toList.zipIdx.foldl
    (fun out (code, id) =>
      out ++ Colour.cyan.paint colour ("pb_" ++ id.repr ++ ":") ++ "\n" ++ set.listUnit colour code)
    main

end Bytecode

end TapeLang
