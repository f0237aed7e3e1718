/-
# Operands in their fields

A field keeps of its operand what its width holds: `Operands.cut`. Fields that stand one after
another are read as what they keep of their operands, wherever they stand and whatever comes behind
them, and a field without an operand is read as zero: `Operands.read_fields`. Operands in the range
of their widths are kept as they are.

An instruction is its opcode with fields of these widths behind it, so that its operands are read
back from any code it stands in: `InstructionSet.coding_of_widths`.
-/
import Mathlib
import TapeLang.Bytecode

namespace TapeLang

namespace Word

/-- Reading back what was written gives the number cut down to the width. -/
theorem ofBigEndian_bigEndian (width n : Nat) :
    ofBigEndian (bigEndian width n) = n % 256 ^ width := by
  have reversed : ofBigEndian (bigEndian width n) = ofLittleEndian (littleEndian width n) := by
    rw [ofBigEndian, bigEndian, List.foldl_reverse, ofLittleEndian]
    congr 1
    funext b n
    omega
  rw [reversed, ofLittleEndian_littleEndian, Nat.pow_eq]

theorem ofInt_lt (width : Nat) (n : Int) : ofInt width n < 256 ^ width := by
  have positive : 0 < 256 ^ width := Nat.pow_pos (by omega)
  simp only [ofInt, Nat.pow_eq]
  omega

@[simp] theorem bigEndian_zero (width : Nat) : bigEndian width 0 = List.replicate width 0 := by
  have little : littleEndian width 0 = List.replicate width 0 := by
    induction width with
    | zero => rfl
    | succ width ih =>
      rw [littleEndian, Nat.zero_div, ih, List.replicate_succ]
      rfl
  rw [bigEndian, little, List.reverse_replicate]

@[simp] theorem ofInt_zero (width : Nat) : ofInt width 0 = 0 := by
  simp [ofInt]

end Word

namespace Operands

/-- What a field keeps of its operand. -/
def cut (width : Nat) (operand : Int) : Nat :=
  if holdsNumber width then Word.ofInt width operand else 0

/-- What fields keep of their operands; an operand that is not given is zero. -/
def kept : (widths : List Nat) → (operands : List Int) → List Nat
  | [], _ => []
  | width :: widths, [] => cut width 0 :: kept widths []
  | width :: widths, operand :: operands => cut width operand :: kept widths operands

@[simp] theorem field_zero (width : Nat) : field width 0 = List.replicate width 0 := by
  simp [field]

variable {front done after : List UInt8} {width : Nat} {widths : List Nat} {operands : List Int}

/-- A field is read as what it keeps. -/
theorem readField_field (operand : Int) :
    readField (front ++ (done ++ (field width operand ++ after))).toArray
        front.length done.length width =
      .ok (cut width operand) := by
  have inside : 0 ≤ (done.length : Int) ∧ (done.length : Int) + width ≤
      ((front ++ (done ++ (field width operand ++ after))).toArray.size - front.length : Nat) := by
    simp only [List.size_toArray, List.length_append, length_field]
    omega
  have there : ((front ++ (done ++ (field width operand ++ after))).toArray.extract
      (front.length + done.length) (front.length + done.length + width)).toList =
        field width operand := by
    have own : (field width operand ++ after).take width = field width operand :=
      List.take_left' (length_field width operand)
    rw [List.extract_toArray, List.extract_eq_take_drop, Nat.add_sub_cancel_left,
      ← List.append_assoc, ← List.length_append, List.drop_left, own]
  simp only [readField, Int.toNat_natCast]
  by_cases number : holdsNumber width = true
  · rw [if_pos number, if_pos inside, there, field, if_pos number, Word.ofBigEndian_bigEndian,
      Nat.mod_eq_of_lt (Word.ofInt_lt width operand), cut, if_pos number]
  · rw [if_neg number, cut, if_neg number]

/-- Fields are read from the first one on as what they keep, and end where their widths say. -/
theorem readFrom_fields (front done after : List UInt8) (widths : List Nat) (operands : List Int)
    (small : done.length + total widths < 0x8000000000000000) :
    readFrom (front ++ (done ++ (fields widths operands ++ after))).toArray front.length done.length
        (widths.map Int.ofNat) =
      .ok (kept widths operands, ((done.length + total widths : Nat) : Int)) := by
  induction widths generalizing done operands with
  | nil => rfl
  | cons width widths ih =>
    -- The field that is read next belongs to what has been read when the others are.
    have next (operand : Int) (operands : List Int) :
        readFrom
          (front ++ (done ++ (field width operand ++ (fields widths operands ++ after)))).toArray
            front.length done.length ((width :: widths).map Int.ofNat) =
          .ok (cut width operand :: kept widths operands,
            ((done.length + total (width :: widths) : Nat) : Int)) := by
      have longer : (done ++ field width operand).length = done.length + width := by simp
      have rest := ih (done ++ field width operand) operands (by
        rw [total_cons] at small
        omega)
      have position : Word.wrap ((done.length : Int) + width) =
          ((done.length + width : Nat) : Int) := by
        rw [total_cons] at small
        rw [Word.wrap_eq_self] <;> omega
      rw [longer, List.append_assoc] at rest
      rw [List.map_cons, readFrom, Int.ofNat_eq_natCast, readField_field]
      simp only [position, rest, total_cons, Nat.add_assoc]
    cases operands with
    | nil =>
      rw [fields, ← field_zero, List.append_assoc, kept]
      exact next 0 []
    | cons operand operands =>
      rw [fields, List.append_assoc, kept]
      exact next operand operands

/-- **Fields are read as what they keep of their operands**, and their widths say where they end. -/
theorem read_fields (front after : List UInt8) (widths : List Nat) (operands : List Int)
    (small : total widths < 0x8000000000000000) :
    read (widths.map Int.ofNat) (front ++ (fields widths operands ++ after)).toArray front.length =
      .ok (kept widths operands, (total widths : Int)) := by
  have whole := readFrom_fields front [] after widths operands (by simpa using small)
  simpa [read] using whole

/-- Operands in the range of their widths are kept as they are. -/
theorem kept_of_inRange (numbers : ∀ width ∈ widths, holdsNumber width = true)
    (range : List.Forall₂ (fun (width : Nat) (operand : Int) => 0 ≤ operand ∧ operand < 256 ^ width)
      widths operands) : (kept widths operands).map Int.ofNat = operands := by
  induction range with
  | nil => rfl
  | cons bounds range ih =>
    rename_i width operand widths operands
    have number := numbers width List.mem_cons_self
    have own : Int.ofNat (cut width operand) = operand := by
      rw [cut, if_pos number, Word.ofInt, Nat.pow_eq, Nat.cast_pow]
      have remains : operand % 256 ^ width = operand := Int.emod_eq_of_lt bounds.1 bounds.2
      rw [Int.ofNat_eq_natCast]
      push_cast
      rw [remains]
      omega
    rw [kept, List.map_cons, own, ih fun w member => numbers w (List.mem_cons_of_mem _ member)]

/-! ## Widths that hold numbers -/

/-- What fields of these widths keep of their operands, and zero for a field without an operand. -/
def remainders (widths operands : List Int) : List Nat :=
  List.zipWith (fun width operand => (operand % 2 ^ (8 * width.toNat)).toNat) widths
    (operands ++ List.replicate (widths.length - operands.length) 0)

theorem remainders_cons (width operand : Int) (widths operands : List Int) :
    remainders (width :: widths) (operand :: operands) =
      (operand % 2 ^ (8 * width.toNat)).toNat :: remainders widths operands := by
  simp only [remainders, List.length_cons, Nat.add_sub_add_right, List.cons_append,
    List.zipWith_cons_cons]

theorem remainders_cons_nil (width : Int) (widths : List Int) :
    remainders (width :: widths) [] = 0 :: remainders widths [] := by
  simp [remainders, List.replicate_succ]

theorem cut_of_holdsNumber (number : holdsNumber width = true) (operand : Int) :
    cut width operand = (operand % 2 ^ (8 * width)).toNat := by
  have base : ((256 ^ width : Nat) : Int) = 2 ^ (8 * width) := by
    rw [pow_mul]
    norm_num
  rw [cut, if_pos number, Word.ofInt, Nat.pow_eq, base]

/-- Fields that hold numbers keep the remainders of their operands. -/
theorem kept_eq_remainders (numbers : ∀ width ∈ widths, holdsNumber width = true)
    (operands : List Int) : kept widths operands = remainders (widths.map Int.ofNat) operands := by
  induction widths generalizing operands with
  | nil => rfl
  | cons width widths ih =>
    have rest := ih fun w member => numbers w (List.mem_cons_of_mem _ member)
    have own := cut_of_holdsNumber (numbers width List.mem_cons_self)
    cases operands with
    | nil =>
      rw [kept, List.map_cons, remainders_cons_nil, rest, own, Int.zero_emod, Int.toNat_zero]
    | cons operand operands =>
      rw [kept, List.map_cons, remainders_cons, rest, own]
      rfl

/-- Widths of one, two and four bytes are natural numbers, and the fields hold numbers. -/
theorem exists_naturals {widths : List Int}
    (numeric : ∀ width ∈ widths, width = 1 ∨ width = 2 ∨ width = 4) :
    ∃ naturals : List Nat, widths = naturals.map Int.ofNat ∧
      ∀ width ∈ naturals, holdsNumber width = true := by
  refine ⟨widths.map Int.toNat, ?_, ?_⟩
  · rw [List.map_map]
    refine (List.map_id _).symm.trans (List.map_congr_left fun width member => ?_)
    rcases numeric width member with rfl | rfl | rfl <;> rfl
  · intro natural member
    obtain ⟨width, given, rfl⟩ := List.mem_map.1 member
    rcases numeric width given with rfl | rfl | rfl <;> rfl

theorem distance_eq_sum (widths : List Int) : distance widths = widths.sum := rfl

/-- A definition whose widths are words of eight bytes, and fit in memory, has instructions that do
as well. -/
theorem sum_le_longest {widths : List Int}
    (numeric : ∀ width ∈ widths, width = 1 ∨ width = 2 ∨ width = 4)
    (storable : 8 * (widths.length : Int) ≤ longest) : 1 + widths.sum ≤ longest := by
  have most : widths.sum ≤ widths.length • (4 : Int) := by
    refine List.sum_le_card_nsmul widths 4 fun width member => ?_
    rcases numeric width member with rfl | rfl | rfl <;> decide
  rw [nsmul_eq_mul] at most
  simp only [longest] at storable ⊢
  omega

end Operands

/-! ## Instructions -/

namespace InstructionSet

/-- How an opcode with these widths is coded with these operands. -/
structure Coding (set : InstructionSet) (opcode : UInt8) (widths operands : List Int) : Prop where
  /-- With no more operands than widths there is an instruction, which begins with the opcode. -/
  made : operands.length ≤ widths.length →
    ∃ coded, set.make opcode operands = some (opcode :: coded)
  /-- With more operands than widths there is none. -/
  refused : widths.length < operands.length → set.make opcode operands = none
  /-- The bytes are the opcode and as many as the widths add up to. -/
  size : ∀ bytes, set.make opcode operands = some bytes → (bytes.length : Int) = 1 + widths.sum
  /-- Behind the opcode the remainders of the operands are read, wherever the instruction stands and
  whatever bytes come after it, and the sum of the widths as the distance to these. -/
  read : ∀ coded, set.make opcode operands = some (opcode :: coded) → ∀ before after,
    Operands.read widths (before ++ (coded ++ after)).toArray before.length =
      .ok (Operands.remainders widths operands, widths.sum)

/-- **Operands are read back as far as their fields hold them.** Whatever fields of one, two and
four bytes an opcode is defined with, and whatever operands are given: fields without an operand are
read as zero. The widths are words of eight bytes themselves, of which there are no more than memory
holds. -/
theorem coding_of_widths {set : InstructionSet} {opcode : UInt8} {definition : Definition}
    (defined : set opcode = some definition)
    (numeric : ∀ width ∈ definition.widths, width = 1 ∨ width = 2 ∨ width = 4)
    (storable : 8 * (definition.widths.length : Int) ≤ Operands.longest) (operands : List Int) :
    set.Coding opcode definition.widths operands := by
  have small := Operands.sum_le_longest numeric storable
  obtain ⟨widths, same, numbers⟩ := Operands.exists_naturals numeric
  have sum : definition.widths.sum = (Operands.total widths : Int) := by
    rw [← Operands.distance_eq_sum, same, Operands.distance_natural]
  have count : definition.widths.length = widths.length := by
    rw [same, List.length_map]
  rw [sum] at small
  have made : set.make opcode operands =
      if operands.length ≤ widths.length then some (opcode :: Operands.fields widths operands)
        else none := by
    simp only [make, defined, same]
    exact Operands.encode?_natural opcode widths operands (by omega)
  refine ⟨?_, ?_, ?_, ?_⟩
  · intro given
    rw [count] at given
    exact ⟨_, made.trans (if_pos given)⟩
  · intro more
    rw [count] at more
    exact made.trans (if_neg (Nat.not_le.2 more))
  · intro bytes found
    rw [made] at found
    split at found
    · cases found
      rw [List.length_cons, Operands.length_fields, sum]
      omega
    · cases found
  · intro coded found before after
    rw [made] at found
    split at found
    · cases found
      have range : Operands.total widths < 0x8000000000000000 := by
        simp only [Operands.longest] at small
        omega
      rw [sum, same, Operands.read_fields before after widths operands range,
        Operands.kept_eq_remainders numbers]
    · cases found

/-- A negative operand, two that are too large, and a field without an operand. -/
theorem coding_of_widths_mixed :
    let definition : Definition := { name := "OpMixed", widths := [2, 1, 4, 2] }
    let set := standard.define 200 definition
    let coded : List UInt8 := [255, 254, 44, 0, 0, 0, 5, 0, 0]
    set 200 = some definition ∧ (∀ width ∈ definition.widths, width = 1 ∨ width = 2 ∨ width = 4) ∧
      8 * (definition.widths.length : Int) ≤ Operands.longest ∧
      set.make 200 [-2, 300, 0x10000000005] = some (200 :: coded) ∧
      Operands.read definition.widths ([8] ++ (coded ++ [7, 7])).toArray 1 =
        .ok ([65534, 44, 5, 0], 9) := by
  intro definition set coded
  have made : set.make 200 [-2, 300, 0x10000000005] = some (200 :: coded) := by decide
  have coding : set.Coding 200 definition.widths [-2, 300, 0x10000000005] :=
    coding_of_widths rfl (by decide) (by decide) _
  exact ⟨rfl, by decide, by decide, made, coding.read coded made [8] [7, 7]⟩

end InstructionSet

end TapeLang
