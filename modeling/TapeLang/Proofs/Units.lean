/-
# The units of a program

The code of nodes as a list of instructions, with the code of a loop spelled out: `Node.around` puts
the test and the way back around the code of the body. A unit of a program is such a list between
what comes before and after it, and compiling a program gives the bytes of its units:
`Program.emitted_of_compile`.
-/
import TapeLang.Bytecode.Compile
import TapeLang.Proofs.Fetch

namespace TapeLang

/-! ## The code of nodes as lists -/

namespace Node

/-- The instructions of nodes, the first of which begins at offset `base`. -/
def instructions (base : Nat) (nodes : List Node) : List Instruction :=
  (codeAll .standard base nodes).toList

/-- The code of nodes is that of the first node and, behind it, that of the others. -/
theorem instructions_cons (base : Nat) (node : Node) (rest : List Node) :
    instructions base (node :: rest) =
      (node.code .standard base).toList ++
        instructions (base + Instruction.span (node.code .standard base).toList) rest := by
  rw [instructions, codeAll, Array.toList_append, Instruction.sizes_standard]
  rfl

/-- The code of a sequence is the code of what it holds. -/
theorem instructions_sequence (base : Nat) (body rest : List Node) :
    instructions base (.sequence body :: rest) =
      instructions base body ++
        instructions (base + Instruction.span (instructions base body)) rest := by
  rw [instructions_cons, code]
  rfl

/-- The code of a loop whose body has the instructions `inner`. -/
def around (base : Nat) (inner : List Instruction) : List Instruction :=
  [.loadPointer, .loadCell, .jumpZero (base + 7 + Instruction.span inner + 5).toUInt32] ++ inner ++
    [.loop (7 + Instruction.span inner).toUInt32]

@[simp] theorem span_around (base : Nat) (inner : List Instruction) :
    Instruction.span (around base inner) = 7 + Instruction.span inner + 5 := by
  simp only [around, Instruction.span_append, Instruction.span_cons, Instruction.span_nil,
    Instruction.size, Instruction.opcode, Opcode.widths, Operands.total_cons, Operands.total_nil]

/-- The code of a loop stands around that of its body, seven bytes further on. -/
theorem instructions_loop (base : Nat) (body rest : List Node) :
    instructions base (.loop body :: rest) =
      around base (instructions (base + 7) body) ++
        instructions (base + (7 + Instruction.span (instructions (base + 7) body) + 5)) rest := by
  have head : loopHead .standard = 7 := by
    rw [loopHead, Instruction.sizes_standard]
    rfl
  have tail : loopTail .standard = 5 := by
    rw [loopTail, Instruction.sizes_standard]
    rfl
  have loop : (code .standard base (.loop body)).toList =
      around base (instructions (base + 7) body) := by
    simp only [code, head, tail, Array.toList_append, Instruction.sizes_standard, loopTest,
      loopBack, ← Nat.add_assoc]
    rfl
  rw [instructions_cons, loop, span_around]

/-- The code of a node that holds no others does not depend on where it stands. -/
theorem instructions_leaf {leaf : Node} (noSequence : ∀ body, leaf ≠ .sequence body)
    (noLoop : ∀ body, leaf ≠ .loop body) (base : Nat) (rest : List Node) :
    instructions base (leaf :: rest) =
      leaf.leafCode.toList ++ instructions (base + Instruction.span leaf.leafCode.toList) rest := by
  have plain : leaf.code .standard base = leaf.leafCode := by
    rw [code]
    · exact noSequence
    · exact noLoop
  rw [instructions_cons, plain]

end Node

/-! ## The units of a program -/

namespace Program

/-- The instructions of a unit of a program, if it has that unit. -/
def unitCode (p : Program) : Option Nat → Option (List Instruction)
  | none => some (p.prologue.toList ++
      Node.instructions (Instruction.span p.prologue.toList) p.main ++ epilogue.toList)
  | some id => p.procedures[id]?.map fun q => Node.instructions 0 q.body ++ [.leave]

/-- Bytecode consists of the units of a program. -/
structure Emitted (p : Program) (code : Bytecode) : Prop where
  unit : ∀ (u : Option Nat) (is : List Instruction), p.unitCode u = some is →
    (code.unit u).toList = is.flatMap Instruction.encode
  count : code.procedures.size = p.procedures.length

/-- Compiled bytecode is the assembled code of the main body and of each procedure in order. -/
theorem compile_eq_ok {p : Program} {code : Bytecode} (h : p.compile = .ok code) :
    code = {
      main := InstructionSet.standard.assemble (p.mainCode .standard)
      procedures := (p.procedures.map fun q =>
        InstructionSet.standard.assemble (procedureCode .standard q)).toArray } := by
  unfold compile compileFor at h
  cases main : p.checkMain .standard with
  | error e =>
    rw [main] at h
    cases h
  | ok _ =>
    cases procedures : checkProcedures .standard 0 p.procedures with
    | error e =>
      rw [main, procedures] at h
      cases h
    | ok _ =>
      rw [main, procedures] at h
      cases h
      rfl

/-- Compiling a program gives its units. -/
theorem emitted_of_compile {p : Program} {code : Bytecode} (h : p.compile = .ok code) :
    p.Emitted code := by
  obtain rfl := compile_eq_ok h
  refine ⟨fun u is found => ?_, by simp⟩
  cases u with
  | none =>
    cases found
    show (InstructionSet.standard.assemble (p.mainCode .standard)).toList = _
    rw [Instruction.toList_assemble_standard, mainCode_eq, Instruction.sizes_standard]
    simp only [Array.toList_append]
    rfl
  | some id =>
    obtain ⟨q, at_id, rfl⟩ := Option.map_eq_some_iff.1 found
    have unit : (p.procedures.map fun q =>
        InstructionSet.standard.assemble (procedureCode .standard q)).toArray[id]? =
        some (InstructionSet.standard.assemble (procedureCode .standard q)) := by
      simp [at_id]
    show ((List.toArray _)[id]?.getD #[]).toList = _
    rw [unit, Option.getD_some, Instruction.toList_assemble_standard, procedureCode_eq]
    simp only [Array.toList_append]
    rfl

/-- A unit of emitted bytecode has the code of its unit from offset 0 on. -/
theorem Emitted.has {p : Program} {code : Bytecode} (h : p.Emitted code) {u : Option Nat}
    {is : List Instruction} (found : p.unitCode u = some is) : code.Has u 0 is :=
  ⟨[], [], by simpa using h.unit u is found, rfl⟩

end Program

end TapeLang
