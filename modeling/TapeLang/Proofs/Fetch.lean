/-
# Fetching from assembled code

A unit of code is the bytes of a list of instructions, and the machine fetches from it what was
written: standing where an instruction begins, it executes that instruction and then stands where
the next one begins. Only the number of a procedure may change on the way, since its field has two
bytes.

* `Bytecode.Has` says which instructions stand at an offset of a unit.
* `Machine.step_of_has` is the step of a machine that stands at such an offset.
* `Machine.Reaches` counts steps that go on; `Machine.steps_of_reaches` takes them off a run.
-/
import Mathlib
import TapeLang.Bytecode.Assembly
import TapeLang.Machine

namespace TapeLang

/-! ## Sizes of lists of instructions -/

namespace Instruction

/-- The number of bytes of instructions one after another. -/
def span (is : List Instruction) : Nat :=
  Operands.total (is.map size)

@[simp] theorem span_nil : span [] = 0 := rfl

@[simp] theorem span_cons (i : Instruction) (is : List Instruction) :
    span (i :: is) = i.size + span is := rfl

@[simp] theorem span_append (a b : List Instruction) : span (a ++ b) = span a + span b := by
  simp [span]

theorem add_span_append (base : Nat) (a b : List Instruction) :
    base + span (a ++ b) = base + span a + span b := by
  rw [span_append, Nat.add_assoc]

/-- Encoded instructions take as many bytes as their span. -/
@[simp] theorem length_flatMap_encode (is : List Instruction) :
    (is.flatMap encode).length = span is := by
  induction is with
  | nil => rfl
  | cons i is ih => rw [List.flatMap_cons, List.length_append, length_encode, ih, span_cons]

/-- The sizes that a draft sums up are the span of its instructions. -/
theorem sizes_standard (is : Array Instruction) :
    InstructionSet.standard.sizes is = span is.toList := by
  rw [InstructionSet.sizes_eq_total, span]
  congr 2
  funext i
  exact InstructionSet.size_standard i

/-- Assembled code is the encoding of each instruction in turn. -/
theorem toList_assemble_standard (is : Array Instruction) :
    (InstructionSet.standard.assemble is).toList = is.toList.flatMap encode := by
  rw [InstructionSet.toList_assemble]
  congr 1
  funext i
  exact InstructionSet.encode_standard i

/-- An instruction that does not change the frames. -/
def isStraight : Instruction → Bool
  | jumpZero _ | loop _ | invoke | leave | returnValue => false
  | newTape _ | newTable | loadPointer | storePointer | loadCell | storeCell | loadScratch
  | storeScratch | constant _ | add | sub | read | write | procedure _ | register | lookup => true

/-! ## Reading operands back -/

/-- An instruction as it is read back: the number of a procedure is cut down to its field. -/
def stored : Instruction → Instruction
  | procedure id => procedure (id % 0x10000)
  | i => i

@[simp] theorem isStraight_stored (i : Instruction) : i.stored.isStraight = i.isStraight := by
  cases i <;> rfl

/-- A word of four bytes is read back wherever it stands. -/
theorem word32At?_bigEndian (before after : List UInt8) (n : UInt32) :
    word32At? (before ++ Word.bigEndian 4 n.toNat ++ after).toArray before.length = some n := by
  have bound : n.toNat < 2 ^ 32 := n.toNat_lt
  have bytes : Word.bigEndian 4 n.toNat = [(n.toNat / 256 / 256 / 256).toUInt8,
      (n.toNat / 256 / 256).toUInt8, (n.toNat / 256).toUInt8, n.toNat.toUInt8] := rfl
  simp only [word32At?, bytes, List.getElem?_toArray]
  simp only [List.append_assoc, List.cons_append, List.nil_append, Nat.toUInt8_eq,
    List.getElem?_append_right (Nat.le_refl _), List.getElem?_append_right (Nat.le_add_right _ _),
    Nat.sub_self, Nat.add_sub_cancel_left, List.getElem?_cons_zero, List.getElem?_cons_succ,
    UInt8.toNat_ofNat', Option.some.injEq]
  apply UInt32.toNat.inj
  simp only [Nat.toUInt32_eq, UInt32.toNat_ofNat']
  omega

/-- A word of two bytes is read back as its low 16 bits. -/
theorem word16At?_bigEndian (before after : List UInt8) (n : Nat) :
    word16At? (before ++ Word.bigEndian 2 n ++ after).toArray before.length =
      some (n % 0x10000).toUInt32 := by
  have bytes : Word.bigEndian 2 n = [(n / 256).toUInt8, n.toUInt8] := rfl
  simp only [word16At?, bytes, List.getElem?_toArray]
  simp only [List.append_assoc, List.cons_append, List.nil_append, Nat.toUInt8_eq,
    List.getElem?_append_right (Nat.le_refl _), List.getElem?_append_right (Nat.le_add_right _ _),
    Nat.sub_self, Nat.add_sub_cancel_left, List.getElem?_cons_zero, List.getElem?_cons_succ,
    UInt8.toNat_ofNat', Option.some.injEq]
  congr 1
  omega

/-- The field of a number of 32 bits. -/
theorem field_word (width : Nat) (holds : Operands.holdsNumber width = true) (n : UInt32) :
    Operands.fields [width] [(n.toNat : Int)] = Word.bigEndian width (n.toNat % 256 ^ width) := by
  have cut : Word.ofInt width (n.toNat : Int) = n.toNat % 256 ^ width := by
    simp only [Word.ofInt, Nat.pow_eq]
    omega
  simp [Operands.fields, Operands.field, holds, cut]

/-- The operand of an instruction is read back from behind its opcode. -/
theorem withOperandAt?_encode (before after : List UInt8) (i : Instruction) :
    withOperandAt? (before ++ i.encode ++ after).toArray (before.length + 1) i.opcode =
      some i.stored := by
  have behind : before ++ i.encode ++ after =
      (before ++ [i.opcode.toByte]) ++ Operands.fields i.opcode.widths i.operands ++ after := by
    simp [encode]
  have position : before.length + 1 = (before ++ [i.opcode.toByte]).length := by simp
  have four (n : UInt32) : n.toNat % 256 ^ 4 = n.toNat := Nat.mod_eq_of_lt n.toNat_lt
  rw [behind, position]
  cases i with
  | newTape n | constant n | jumpZero n | loop n =>
    simp only [opcode, operands, Opcode.widths, withOperandAt?, stored]
    rw [field_word 4 rfl, four, word32At?_bigEndian]
    rfl
  | procedure n =>
    simp only [opcode, operands, Opcode.widths, withOperandAt?, stored]
    rw [field_word 2 rfl, word16At?_bigEndian, Option.map_some]
    -- The only field that is narrower than its operand: what is read back is the rest by 2 ^ 16.
    congr 2
    apply UInt32.toNat.inj
    simp only [Nat.toUInt32_eq, UInt32.toNat_ofNat', UInt32.toNat_mod, UInt32.reduceToNat]
    omega
  | _ => rfl

end Instruction

/-! ## Instructions at an offset of a unit -/

namespace Bytecode

/-- The instructions `is` stand at offset `base` of a unit. -/
def Has (code : Bytecode) (unit : Option Nat) (base : Nat) (is : List Instruction) : Prop :=
  ∃ before after : List Instruction,
    (code.unit unit).toList = (before ++ is ++ after).flatMap Instruction.encode ∧
      Instruction.span before = base

variable {code : Bytecode} {unit : Option Nat} {base : Nat} {a b is : List Instruction}

/-- The first part of code stands where the code does. -/
theorem Has.left (h : code.Has unit base (a ++ b)) : code.Has unit base a := by
  obtain ⟨before, after, bytes, offset⟩ := h
  exact ⟨before, b ++ after, by simpa using bytes, offset⟩

/-- The second part of code stands behind the first. -/
theorem Has.right (h : code.Has unit base (a ++ b)) :
    code.Has unit (base + Instruction.span a) b := by
  obtain ⟨before, after, bytes, rfl⟩ := h
  exact ⟨before ++ a, after, by simpa using bytes, by simp⟩

/-- Behind the first instruction of code stand the others. -/
theorem Has.tail {i : Instruction} (h : code.Has unit base (i :: is)) :
    code.Has unit (base + i.size) is := by
  have := Has.right (a := [i]) h
  simpa using this

/-- Instructions end inside their unit. -/
theorem Has.le_size (h : code.Has unit base is) :
    base + Instruction.span is ≤ (code.unit unit).size := by
  obtain ⟨before, after, bytes, rfl⟩ := h
  rw [← Array.length_toList, bytes, Instruction.length_flatMap_encode]
  simp only [Instruction.span_append]
  omega

/-- The units are short enough for positions to fit the field of an operand. -/
structure Short (code : Bytecode) : Prop where
  main : code.main.size < 2 ^ 32
  procedures : ∀ unit ∈ code.procedures, unit.size < 2 ^ 32

/-- Every unit of short bytecode is short, as is the empty one in place of a missing unit. -/
theorem Short.unit_lt (short : code.Short) (unit : Option Nat) :
    (code.unit unit).size < 2 ^ 32 := by
  cases unit with
  | none => exact short.main
  | some id =>
    show (code.procedures[id]?.getD #[]).size < 2 ^ 32
    cases found : code.procedures[id]? with
    | none => decide
    | some procedure => exact short.procedures procedure (Array.mem_of_getElem? found)

end Bytecode

/-! ## One step -/

namespace Machine

variable {σ : Type}

/-- The machine about to fetch the instruction at a position of a unit. -/
def stand (m : Machine) (unit : Option Nat) (position : Nat) : Machine :=
  { m with frame := { unit := unit, ip := position - 1 } }

variable [Host σ] {code : Bytecode} {unit : Option Nat} {base : Nat} {i : Instruction}
  {is : List Instruction}

/-- A machine that stands at an instruction executes it. -/
theorem step_eq_execute (here : code.Has unit base (i :: is)) (m : Machine) (host : σ) :
    (m.stand unit base).step code host =
      ((m.stand unit base).setIp (lastByte base i.opcode)).execute code host i.stored := by
  obtain ⟨before, after, bytes, rfl⟩ := here
  -- The unit divides into what stands before the instruction, its own bytes, and what stands behind
  -- it.
  have split : code.unit unit = (before.flatMap Instruction.encode ++ i.encode ++
      (is ++ after).flatMap Instruction.encode).toArray := by
    apply Array.ext'
    simpa using bytes
  have first : (code.unit unit)[Instruction.span before]? = some i.opcode.toByte := by
    rw [split, ← Instruction.length_flatMap_encode before]
    simp [Instruction.encode]
  have operand :
      Instruction.withOperandAt? (code.unit unit) (Instruction.span before + 1) i.opcode =
      some i.stored := by
    rw [split, ← Instruction.length_flatMap_encode before]
    exact Instruction.withOperandAt?_encode _ _ i
  have next : (m.stand unit (Instruction.span before)).frame.ip + 1 =
      Int.ofNat (Instruction.span before) := by
    show (Instruction.span before : Int) - 1 + 1 = _
    simp
  have same : code.unit (m.stand unit (Instruction.span before)).frame.unit = code.unit unit := rfl
  simp only [step, next, same, first, Opcode.ofByte?_toByte, operand]

/-- Every instruction but a jump back leaves the machine at the next one before it is executed. -/
theorem step_of_has (here : code.Has unit base (i :: is)) (forward : i.opcode ≠ .loop)
    (m : Machine) (host : σ) :
    (m.stand unit base).step code host =
      (m.stand unit (base + i.size)).execute code host i.stored := by
  have last : lastByte base i.opcode = ((base + i.size : Nat) : Int) - 1 := by
    unfold lastByte
    split
    · contradiction
    · simp only [Instruction.size]
      omega
  rw [step_eq_execute here, last]
  rfl

/-- A jump back leaves the machine as far before its own position as it says. -/
theorem step_of_has_loop {distance : UInt32} (here : code.Has unit base (.loop distance :: is))
    (inside : distance.toNat ≤ base) (m : Machine) (host : σ) :
    (m.stand unit base).step code host = .next (m.stand unit (base - distance.toNat)) host := by
  have position : (base : Int) - (distance.toNat + 1) =
      ((base - distance.toNat : Nat) : Int) - 1 := by
    omega
  rw [step_eq_execute here]
  show Step.next ({ m with frame := { unit := unit, ip := (base : Int) - (distance.toNat + 1) } })
    host = _
  rw [position]
  rfl

/-! ## Many steps -/

/-- From one state the machine comes to another one in `n` steps, all of which go on. -/
inductive Reaches (code : Bytecode) : Nat → Machine × σ → Machine × σ → Prop
  | refl (c : Machine × σ) : Reaches code 0 c c
  | head {n : Nat} {m m' : Machine} {host host' : σ} {e : Machine × σ} :
      m.step code host = .next m' host' → Reaches code n (m', host') e →
      Reaches code (n + 1) (m, host) e

/-- Steps after steps are steps, and their numbers add up. -/
theorem Reaches.trans {j k : Nat} {c d e : Machine × σ} (h : Reaches code j c d)
    (g : Reaches code k d e) : Reaches code (j + k) c e := by
  induction h with
  | refl c => simpa using g
  | head step _ ih =>
    rw [Nat.add_right_comm]
    exact .head step (ih g)

/-- A step that goes on is one step. -/
theorem Reaches.single {m m' : Machine} {host host' : σ}
    (h : m.step code host = .next m' host') : Reaches code 1 (m, host) (m', host') :=
  .head h (.refl _)

/-- Steps that go on can be taken off a run. -/
theorem steps_of_reaches {n : Nat} {c d : Machine × σ} (h : Reaches code n c d) (limit : Nat) :
    steps code (n + limit) c.1 c.2 = steps code limit d.1 d.2 := by
  induction h with
  | refl c => simp
  | head step _ ih =>
    rw [Nat.add_right_comm, steps, step]
    exact ih

/-- A run that is still going after `n` steps is not over within fewer. -/
theorem steps_unfinished_of_reaches {n limit : Nat} {c d : Machine × σ} (h : Reaches code n c d)
    (few : limit ≤ n) : steps code limit c.1 c.2 = .unfinished := by
  induction h generalizing limit with
  | refl c =>
    obtain rfl : limit = 0 := by omega
    rfl
  | head step _ ih =>
    cases limit with
    | zero => rfl
    | succ limit =>
      rw [steps, step]
      exact ih (by omega)

/-- More steps do not change how a run ends. -/
theorem steps_mono {limit more : Nat} {m : Machine} {host : σ}
    (ended : steps code limit m host ≠ .unfinished) :
    steps code (limit + more) m host = steps code limit m host := by
  induction limit generalizing m host with
  | zero => exact absurd rfl ended
  | succ limit ih =>
    rw [Nat.add_right_comm, steps, steps]
    rw [steps] at ended
    cases stepped : m.step code host with
    | next m' host' =>
      simp only [stepped] at ended
      exact ih ended
    | halt _ _ _ | fault _ _ _ | broken _ _ => rfl

end Machine

end TapeLang
