/-
# What stands where a machine stands

The bytes of a unit may be any, and a machine may stand anywhere: at an instruction, in the middle
of one, at a byte that begins none, at the end of the unit, or before it. `Machine.fetch` tells what
it finds there. That is decided by the bytes (`Machine.fetch_eq_iff`), and decides what the next
step does (`Machine.step_eq_of_fetch`).
-/
import TapeLang.Proofs.Fetch

namespace TapeLang

/-! ## Operands in any code -/

namespace Opcode

/-- A byte with an opcode is the byte of this opcode. -/
theorem eq_toByte {b : UInt8} {op : Opcode} (h : ofByte? b = some op) : b = op.toByte := by
  unfold ofByte? at h
  split at h <;> cases h <;> rfl

end Opcode

namespace Instruction

/-- An instruction that is read has the opcode it was read for. -/
theorem opcode_of_withOperandAt? {unit : Code} {position : Nat} {op : Opcode} {i : Instruction}
    (h : withOperandAt? unit position op = some i) : i.opcode = op := by
  cases op with
  | newTape | constant | jumpZero | loop | procedure =>
    obtain ⟨n, -, rfl⟩ := Option.map_eq_some_iff.1 h
    rfl
  | _ =>
    cases h
    rfl

/-- A word of four bytes is missing exactly where the unit ends before its last byte. -/
theorem word32At?_eq_none_iff (unit : Code) (position : Nat) :
    word32At? unit position = none ↔ unit.size < position + 4 := by
  unfold word32At?
  constructor
  · intro none
    by_contra enough
    rw [Array.getElem?_eq_getElem (by omega), Array.getElem?_eq_getElem (by omega),
      Array.getElem?_eq_getElem (by omega), Array.getElem?_eq_getElem (by omega)] at none
    cases none
  · intro short
    rw [Array.getElem?_eq_none (i := position + 3) (by omega)]
    split
    · contradiction
    · rfl

/-- A word of two bytes is missing exactly where the unit ends before its last byte. -/
theorem word16At?_eq_none_iff (unit : Code) (position : Nat) :
    word16At? unit position = none ↔ unit.size < position + 2 := by
  unfold word16At?
  constructor
  · intro none
    by_contra enough
    rw [Array.getElem?_eq_getElem (by omega), Array.getElem?_eq_getElem (by omega)] at none
    cases none
  · intro short
    rw [Array.getElem?_eq_none (i := position + 1) (by omega)]
    split
    · contradiction
    · rfl

/-- An operand can not be read if it runs past the end of the unit, and else it can. -/
theorem withOperandAt?_eq_none_iff {unit : Code} {position : Nat} (inside : position ≤ unit.size)
    (op : Opcode) :
    withOperandAt? unit position op = none ↔ unit.size < position + Operands.total op.widths := by
  cases op with
  | newTape | constant | jumpZero | loop =>
    simp only [withOperandAt?, Option.map_eq_none_iff]
    exact word32At?_eq_none_iff unit position
  | procedure =>
    simp only [withOperandAt?, Option.map_eq_none_iff]
    exact word16At?_eq_none_iff unit position
  | _ =>
    constructor
    · intro none
      cases none
    · intro short
      have whole : unit.size < position + 0 := short
      omega

end Instruction

/-! ## Fetching -/

namespace Machine

variable {σ : Type} {code : Bytecode} {m : Machine}

/-- What a machine finds where it stands. -/
inductive Fetched where
  /-- Nothing, since it stands before the first byte of its unit. -/
  | before
  /-- Nothing, since its unit has been consumed to its end. -/
  | ended
  /-- A byte that begins no instruction. -/
  | unknown (b : UInt8) (position : Nat)
  /-- An opcode whose operand runs past the end of the unit. -/
  | cut (op : Opcode) (position : Nat)
  /-- An instruction. -/
  | instruction (i : Instruction) (position : Nat)
deriving DecidableEq

/-- Looks where the machine stands. -/
def fetch (m : Machine) (code : Bytecode) : Fetched :=
  match m.frame.ip + 1 with
  | .negSucc _ => .before
  | .ofNat position =>
    match (code.unit m.frame.unit)[position]? with
    | none => .ended
    | some b =>
      match Opcode.ofByte? b with
      | none => .unknown b position
      | some op =>
        match Instruction.withOperandAt? (code.unit m.frame.unit) (position + 1) op with
        | none => .cut op position
        | some i => .instruction i position

/-- What is found decides what a step does. -/
theorem step_eq_of_fetch [Host σ] (m : Machine) (code : Bytecode) (host : σ) :
    m.step code host = match m.fetch code with
      | .before => .broken .negativePosition host
      | .ended => .halt 0 m host
      | .unknown b position => .fault (.unknownOpcode b) (m.setIp position) host
      | .cut _ _ => .broken .operandPastEnd host
      | .instruction i position => (m.setIp (lastByte position i.opcode)).execute code host i := by
  unfold step fetch
  cases place : m.frame.ip + 1 with
  | negSucc n => rfl
  | ofNat position =>
    dsimp only
    cases byte : (code.unit m.frame.unit)[position]? with
    | none => rfl
    | some b =>
      dsimp only
      cases known : Opcode.ofByte? b with
      | none => rfl
      | some op =>
        dsimp only
        cases operand : Instruction.withOperandAt? (code.unit m.frame.unit) (position + 1) op with
        | none => rfl
        | some i =>
          dsimp only
          rw [Instruction.opcode_of_withOperandAt? operand]

/-- What it means to find something in a unit. -/
def Fetched.Stands (unit : Code) (ip : Int) : Fetched → Prop
  | before => ip + 1 < 0
  | ended => ∃ position : Nat, ip + 1 = position ∧ unit.size ≤ position
  | unknown b position => ip + 1 = position ∧ unit[position]? = some b ∧ Opcode.ofByte? b = none
  | cut op position => ip + 1 = position ∧ unit[position]? = some op.toByte ∧
      unit.size < position + 1 + Operands.total op.widths
  | instruction i position => ip + 1 = position ∧ unit[position]? = some i.opcode.toByte ∧
      Instruction.withOperandAt? unit (position + 1) i.opcode = some i

/-- A fetch finds what the unit has behind the last byte that was executed. -/
theorem stands_fetch (m : Machine) (code : Bytecode) :
    (m.fetch code).Stands (code.unit m.frame.unit) m.frame.ip := by
  unfold fetch
  cases place : m.frame.ip + 1 with
  | negSucc n =>
    show m.frame.ip + 1 < 0
    rw [place]
    exact Int.negSucc_lt_zero n
  | ofNat position =>
    dsimp only
    cases byte : (code.unit m.frame.unit)[position]? with
    | none => exact ⟨position, place, Array.getElem?_eq_none_iff.1 byte⟩
    | some b =>
      dsimp only
      cases known : Opcode.ofByte? b with
      | none => exact ⟨place, byte, known⟩
      | some op =>
        obtain rfl := Opcode.eq_toByte known
        have inside : position < (code.unit m.frame.unit).size :=
          (Array.getElem?_eq_some_iff.1 byte).1
        dsimp only
        cases operand : Instruction.withOperandAt? (code.unit m.frame.unit) (position + 1) op with
        | none => exact ⟨place, byte, (Instruction.withOperandAt?_eq_none_iff inside op).1 operand⟩
        | some i =>
          obtain rfl := Instruction.opcode_of_withOperandAt? operand
          exact ⟨place, byte, operand⟩

/-- What a machine finds is what stands there, and nothing else does. -/
theorem fetch_eq_iff {found : Fetched} :
    m.fetch code = found ↔ found.Stands (code.unit m.frame.unit) m.frame.ip := by
  constructor
  · rintro rfl
    exact stands_fetch m code
  · intro stands
    unfold fetch
    cases found with
    | before =>
      obtain ⟨n, place⟩ := Int.eq_negSucc_of_lt_zero stands
      rw [place]
    | ended =>
      obtain ⟨position, place, outside⟩ := stands
      simp only [show m.frame.ip + 1 = Int.ofNat position from place,
        Array.getElem?_eq_none outside]
    | unknown b position =>
      obtain ⟨place, byte, none⟩ := stands
      simp only [show m.frame.ip + 1 = Int.ofNat position from place, byte, none]
    | cut op position =>
      obtain ⟨place, byte, short⟩ := stands
      have inside : position < (code.unit m.frame.unit).size :=
        (Array.getElem?_eq_some_iff.1 byte).1
      have operand := (Instruction.withOperandAt?_eq_none_iff inside op).2 short
      simp only [show m.frame.ip + 1 = Int.ofNat position from place, byte, Opcode.ofByte?_toByte,
        operand]
    | instruction i position =>
      obtain ⟨place, byte, operand⟩ := stands
      simp only [show m.frame.ip + 1 = Int.ofNat position from place, byte, Opcode.ofByte?_toByte,
        operand]

end Machine

end TapeLang
