/-
# Assembling code

The bytes of instructions one after another, and their sizes, which are additive: an instruction
stands at the sum of the sizes before it.
-/
import TapeLang.Bytecode

namespace TapeLang

namespace InstructionSet

/-- The number of bytes of a list of instructions. -/
def sizes (set : InstructionSet) (code : Array Instruction) : Nat :=
  code.foldl (fun n i => n + set.size i) 0

/-- The bytes of a list of instructions. -/
def assemble (set : InstructionSet) (code : Array Instruction) : Code :=
  code.foldl (fun out i => out ++ set.encode i) #[]

theorem sizes_eq_total (set : InstructionSet) (code : Array Instruction) :
    set.sizes code = Operands.total (code.toList.map set.size) := by
  have shift : ∀ (l : List Instruction) (n : Nat),
      l.foldl (fun n i => n + set.size i) n = n + Operands.total (l.map set.size) := by
    intro l
    induction l with
    | nil => simp
    | cons i l ih => intro n; simp [ih, Nat.add_assoc]
  simp [sizes, ← Array.foldl_toList, shift]

@[simp] theorem sizes_append (set : InstructionSet) (a b : Array Instruction) :
    set.sizes (a ++ b) = set.sizes a + set.sizes b := by
  simp [sizes_eq_total]

theorem toList_assemble (set : InstructionSet) (code : Array Instruction) :
    (set.assemble code).toList = code.toList.flatMap set.encode := by
  have shift : ∀ (l : List Instruction) (out : Code),
      (l.foldl (fun (out : Code) i => out ++ set.encode i) out).toList =
        out.toList ++ l.flatMap set.encode := by
    intro l
    induction l with
    | nil => simp
    | cons i l ih => intro out; simp [ih]
  simp [assemble, ← Array.foldl_toList, shift]

/-- The sizes of instructions that can be made are those of their bytes. -/
theorem size_assemble {set : InstructionSet} {code : Array Instruction}
    (h : ∀ i ∈ code, set.takes i = true) : (set.assemble code).size = set.sizes code := by
  rw [← Array.length_toList, toList_assemble, sizes_eq_total, List.length_flatMap]
  congr 1
  apply List.map_congr_left
  intro i member
  exact length_encode (h i (Array.mem_toList_iff.1 member))

@[simp] theorem size_assemble_standard (code : Array Instruction) :
    (standard.assemble code).size = standard.sizes code :=
  size_assemble fun i _ => takes_standard i

end InstructionSet

end TapeLang
