/-
# Writing code in one go

The code of a node is put together from the code of its parts once their sizes are known. A draft is
written from left to right instead, without looking ahead: the test of a loop gets its target when
the end of the loop is reached. What is written is the code of the node, `draft_eq_add`.
-/
import TapeLang.Program.Code

namespace TapeLang.Node

/-- Code under way: the instructions written so far, and the offset that is next. -/
structure Draft where
  code : Array Instruction := #[]
  offset : Nat := 0

/-- Writes instructions. -/
def Draft.add (set : InstructionSet) (d : Draft) (more : Array Instruction) : Draft :=
  { code := d.code ++ more, offset := d.offset + set.sizes more }

/-- Ends a loop that begins at offset `start` and whose body is written after the test, which is the
instruction before position `next`. -/
def Draft.close (set : InstructionSet) (start next : Nat) (d : Draft) : Draft :=
  let done := d.add set (loopBack (d.offset - start))
  { done with code := done.code.setIfInBounds (next - 1) (.jumpZero done.offset.toUInt32) }

mutual

/-- Writes the code of a node. -/
def draft (set : InstructionSet) (d : Draft) : Node → Draft
  | sequence body => draftAll set d body
  | loop body =>
    let start := d.offset
    let test := d.add set (loopTest 0)
    let next := test.code.size
    (draftAll set test body).close set start next
  | leaf => d.add set leaf.leafCode

/-- Writes the code of nodes. -/
def draftAll (set : InstructionSet) (d : Draft) : List Node → Draft
  | [] => d
  | node :: rest => draftAll set (node.draft set d) rest

end

theorem Draft.add_add (set : InstructionSet) (d : Draft) (a b : Array Instruction) :
    (d.add set a).add set b = d.add set (a ++ b) := by
  simp [Draft.add, Nat.add_assoc]

/-- Ending a loop gives its test the target that the code of a loop has. -/
theorem Draft.close_add (set : InstructionSet) (d : Draft) (inner : Array Instruction) :
    ((d.add set (loopTest 0)).add set inner).close set d.offset (d.add set (loopTest 0)).code.size =
      let distance := loopHead set + set.sizes inner
      d.add set (loopTest (d.offset + distance + loopTail set) ++ inner ++ loopBack distance) := by
  have test : ∀ target, set.sizes (loopTest target) = loopHead set := fun _ => rfl
  have back : ∀ distance, set.sizes (loopBack distance) = loopTail set := fun _ => rfl
  have distance : d.offset + loopHead set + set.sizes inner - d.offset =
      loopHead set + set.sizes inner := by omega
  have target : ∀ (front back : Array Instruction) (position : Nat),
      (front ++ loopTest 0 ++ inner ++ back).setIfInBounds ((front ++ loopTest 0).size - 1)
        (.jumpZero position.toUInt32) = front ++ loopTest position ++ inner ++ back := by
    intro front back position
    apply Array.ext'
    simp [loopTest]
  simp only [Draft.close, Draft.add, test, back, distance, target, InstructionSet.sizes_append]
  simp [Nat.add_assoc]

mutual

/-- A draft writes the code of a node. -/
theorem draft_eq_add (set : InstructionSet) (d : Draft) (node : Node) :
    node.draft set d = d.add set (node.code set d.offset) := by
  match node with
  | sequence body => simpa only [draft, code] using draftAll_eq_add set d body
  | loop body =>
    simp only [draft, code]
    rw [draftAll_eq_add, Draft.close_add]
    rfl
  | move _ | amend _ | read | write | zero | procedure _ _ | register _ | call => rfl

theorem draftAll_eq_add (set : InstructionSet) (d : Draft) (body : List Node) :
    draftAll set d body = d.add set (codeAll set d.offset body) := by
  match body with
  | [] => simp [draftAll, codeAll, Draft.add, InstructionSet.sizes]
  | node :: rest =>
    simp only [draftAll, codeAll]
    rw [draft_eq_add, draftAll_eq_add, Draft.add_add]
    rfl

end

end TapeLang.Node
