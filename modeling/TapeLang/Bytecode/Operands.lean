/-
# Operands

Operands follow their opcode, each in as many bytes as its width says, most significant byte first.
Widths of one, two and four bytes hold a number; a field of any other width is reserved but holds
none, so it is written as zeros and reads as zero.

A width is a distance to the next field, and distances add up as signed words of 64 bits. So a
definition may also lead backwards, or wrap around; then its operands are read and written wherever
that leads, as long as it is inside the bytes. For widths that are natural numbers the fields stand
one after another: `encode?_natural`.
-/
import TapeLang.Text.Decimal
import TapeLang.Word

namespace TapeLang.Operands

/-- The widths that hold a number. -/
def holdsNumber (width : Nat) : Bool :=
  width == 1 || width == 2 || width == 4

/-! ## Fields one after another -/

/-- The number of bytes that fields of the given widths take. -/
def total (widths : List Nat) : Nat :=
  widths.foldr (· + ·) 0

@[simp] theorem total_nil : total [] = 0 := rfl

@[simp] theorem total_cons (width : Nat) (widths : List Nat) :
    total (width :: widths) = width + total widths := rfl

@[simp] theorem total_append (a b : List Nat) : total (a ++ b) = total a + total b := by
  induction a with
  | nil => simp
  | cons width a ih => simp [ih, Nat.add_assoc]

/-- The field of one operand. -/
def field (width : Nat) (operand : Int) : List UInt8 :=
  if holdsNumber width then Word.bigEndian width (Word.ofInt width operand)
  else List.replicate width 0

/-- The fields of an opcode's operands; those that are not given are zero. -/
def fields : (widths : List Nat) → (operands : List Int) → List UInt8
  | [], _ => []
  | width :: widths, [] => List.replicate width 0 ++ fields widths []
  | width :: widths, operand :: operands => field width operand ++ fields widths operands

@[simp] theorem length_field (width : Nat) (operand : Int) :
    (field width operand).length = width := by
  unfold field
  split <;> simp

/-- The fields take as many bytes as the widths say, however many operands are given. -/
@[simp] theorem length_fields (widths : List Nat) (operands : List Int) :
    (fields widths operands).length = total widths := by
  induction widths generalizing operands with
  | nil => simp [fields]
  | cons width widths ih => cases operands <;> simp [fields, ih]

@[simp] theorem fields_nil (widths : List Nat) :
    fields widths [] = List.replicate (total widths) 0 := by
  induction widths with
  | nil => rfl
  | cons width widths ih => simp [fields, ih, List.replicate_append_replicate]

/-! ## Writing -/

/-- The bytes with a part of them, from a position on, replaced. -/
def overwrite (bytes : List UInt8) (position : Nat) (part : List UInt8) : List UInt8 :=
  bytes.take position ++ part ++ bytes.drop (position + part.length)

/-- Writes operands into an instruction, the first at an offset. There is no answer if a field does
not lie inside the instruction, or if there are more operands than widths. -/
def fill (bytes : List UInt8) (offset : Int) : (widths operands : List Int) → Option (List UInt8)
  | _, [] => some bytes
  | [], _ :: _ => none
  | width :: widths, operand :: operands =>
    if holdsNumber width.toNat then
      if 0 ≤ offset ∧ offset + width ≤ bytes.length then
        let written := overwrite bytes offset.toNat (field width.toNat operand)
        fill written (Word.wrap (offset + width)) widths operands
      else none
    else fill bytes (Word.wrap (offset + width)) widths operands

/-- The distance that widths add up to. -/
def distance (widths : List Int) : Int :=
  widths.foldr (· + ·) 0

@[simp] theorem distance_nil : distance [] = 0 := rfl

@[simp] theorem distance_cons (width : Int) (widths : List Int) :
    distance (width :: widths) = width + distance widths := rfl

theorem distance_natural (widths : List Nat) : distance (widths.map Int.ofNat) = total widths := by
  induction widths with
  | nil => rfl
  | cons width widths ih => simp [ih]

/-- The number of bytes that an opcode and fields of the given widths take. -/
def size (widths : List Int) : Int :=
  Word.wrap (1 + distance widths)

/-- No instruction is longer. -/
def longest : Int := 0x1000000000000

/-- The bytes of an instruction with the given operands, if it can have them. -/
def encode? (opcode : UInt8) (widths operands : List Int) : Option (List UInt8) :=
  if 0 < size widths ∧ size widths ≤ longest then
    fill (opcode :: List.replicate (size widths - 1).toNat 0) 1 widths operands
  else none

/-- Writing operands keeps the number of bytes. -/
theorem length_of_fill {bytes filled : List UInt8} {offset : Int} {widths operands : List Int}
    (h : fill bytes offset widths operands = some filled) : filled.length = bytes.length := by
  induction widths generalizing bytes offset operands with
  | nil => cases operands <;> simp_all [fill]
  | cons width widths ih =>
    cases operands with
    | nil => simp_all [fill]
    | cons operand operands =>
      rw [fill] at h
      split at h
      · split at h
        · next inside =>
          rw [ih h, overwrite]
          simp only [List.length_append, List.length_take, List.length_drop, length_field]
          omega
        · cases h
      · exact ih h

/-- An instruction has the size that its widths say. -/
theorem length_of_encode? {opcode : UInt8} {widths operands : List Int} {bytes : List UInt8}
    (h : encode? opcode widths operands = some bytes) : bytes.length = (size widths).toNat := by
  rw [encode?] at h
  split at h
  · rw [length_of_fill h]
    simp only [List.length_cons, List.length_replicate]
    omega
  · cases h

/-- Operands are written field by field after what is there, if their widths are natural numbers. -/
theorem fill_natural (front : List UInt8) (widths : List Nat) (operands : List Int)
    (small : front.length + total widths < 0x8000000000000000) :
    fill (front ++ List.replicate (total widths) 0) front.length (widths.map Int.ofNat) operands =
      if operands.length ≤ widths.length then some (front ++ fields widths operands) else none := by
  induction widths generalizing front operands with
  | nil => cases operands <;> simp [fill, fields]
  | cons width widths ih =>
    cases operands with
    | nil => simp [fill]
    | cons operand operands =>
      simp only [total_cons] at small
      have next : Word.wrap (front.length + Int.ofNat width) =
          ((front.length + width : Nat) : Int) := by
        rw [Word.wrap_eq_self] <;> simp only [Int.ofNat_eq_natCast] <;> omega
      have inside : 0 ≤ (front.length : Int) ∧ (front.length : Int) + Int.ofNat width ≤
          (front ++ List.replicate (width + total widths) 0).length := by
        simp only [List.length_append, List.length_replicate, Int.ofNat_eq_natCast]
        omega
      have rest := ih (front ++ field width operand) operands (by
        simp only [List.length_append, length_field]
        omega)
      simp only [List.length_append, length_field] at rest
      have written : overwrite (front ++ List.replicate (width + total widths) 0) front.length
          (field width operand) = front ++ field width operand ++
            List.replicate (total widths) 0 := by
        simp [overwrite, ← List.replicate_append_replicate, List.drop_append]
      have width_eq : (Int.ofNat width).toNat = width := rfl
      rw [List.map_cons, total_cons, fill, width_eq, next]
      by_cases number : holdsNumber width = true
      · rw [if_pos number, if_pos inside]
        show fill (overwrite _ front.length _) _ _ _ = _
        rw [written, rest]
        simp [fields]
      · have zeros : field width operand = List.replicate width 0 := by
          rw [field, if_neg number]
        rw [zeros, List.append_assoc, List.replicate_append_replicate] at rest
        rw [if_neg number, rest]
        simp [fields, zeros]

/-- With widths that are natural numbers, an instruction is its opcode and its fields. -/
theorem encode?_natural (opcode : UInt8) (widths : List Nat) (operands : List Int)
    (small : ((1 + total widths : Nat) : Int) ≤ longest) :
    encode? opcode (widths.map Int.ofNat) operands =
      if operands.length ≤ widths.length then some (opcode :: fields widths operands)
        else none := by
  have whole : size (widths.map Int.ofNat) = ((1 + total widths : Nat) : Int) := by
    rw [size, distance_natural, Word.wrap_eq_self] <;> simp only [longest] at small <;> omega
  have blank : (((1 + total widths : Nat) : Int) - 1).toNat = total widths := by omega
  have filled := fill_natural [opcode] widths operands (by
    simp only [longest] at small
    simp only [List.length_singleton]
    omega)
  simp only [List.singleton_append, List.length_singleton] at filled
  unfold encode?
  rw [whole, if_pos ⟨by omega, small⟩, blank]
  exact filled

/-! ## Reading -/

/-- An operand that lies beyond the ends of the bytes. -/
inductive Overrun where
  /-- The byte at `index` is asked of no more than `length` bytes. -/
  | index (index : Int) (length : Nat)
  /-- The bytes from `start` on are asked of no more than `length` bytes. -/
  | start (start : Int) (length : Nat)
deriving DecidableEq, Repr

/-- How an overrun is described. Before the first byte the length does not matter. -/
def Overrun.message : Overrun → String
  | index i n =>
    let asked := "index out of range [" ++ Decimal.text i ++ "]"
    if i < 0 then asked else asked ++ " with length " ++ n.repr
  | start i n =>
    let asked := "slice bounds out of range [" ++ Decimal.text i ++ ":"
    if i < 0 then asked ++ "]" else asked ++ n.repr ++ "]"

/-- The operand of a given width at an offset of the bytes that follow position `base`. A field of
several bytes is first taken to begin inside the bytes, or at their end, and then asked for its last
byte. -/
def readField (bytes : Array UInt8) (base : Nat) (offset width : Int) : Except Overrun Nat :=
  let length := bytes.size - base
  if holdsNumber width.toNat then
    if 0 ≤ offset ∧ offset + width ≤ length then
      let start := base + offset.toNat
      .ok (Word.ofBigEndian (bytes.extract start (start + width.toNat)).toList)
    else if width = 1 then .error (.index offset length)
    else if offset < 0 ∨ length < offset then .error (.start offset length)
    else .error (.index (width - 1) (length - offset.toNat))
  else .ok 0

/-- The operands of the given widths from an offset on, and the offset at which they end. -/
def readFrom (bytes : Array UInt8) (base : Nat) (offset : Int) :
    List Int → Except Overrun (List Nat × Int)
  | [] => .ok ([], offset)
  | width :: widths =>
    match readField bytes base offset width with
    | .error overrun => .error overrun
    | .ok operand =>
      match readFrom bytes base (Word.wrap (offset + width)) widths with
      | .error overrun => .error overrun
      | .ok (operands, stop) => .ok (operand :: operands, stop)

/-- The operands of the given widths in the bytes that follow position `base`, and the distance to
what comes after them. -/
def read (widths : List Int) (bytes : Array UInt8) (base : Nat) : Except Overrun (List Nat × Int) :=
  readFrom bytes base 0 widths

end TapeLang.Operands
