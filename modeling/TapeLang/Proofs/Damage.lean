/-
# Damaged modules

Damage to a module that is confined to four consecutive bytes is always found, wherever these bytes
stand and even if some of them belong to the checksum itself.

Shifting the register of the checksum is linear in exclusive or (`Checksum.shift_xor`) and loses
nothing (`Checksum.shifts_inj`). Up to four bytes that are absorbed are a word, least significant
byte first, that is brought into the register and shifted through it
(`Checksum.register_eq_shifts`), so different bytes leave different registers, and these stay
different whatever is absorbed after them. The checksum of a module stands behind it in the same
order of bytes. So absorbing a module with its checksum leaves one and the same register for all
modules, `ModuleFile.register_signed`, and bytes that differ from a module in one place of four
bytes do not.
-/
import TapeLang.Proofs.ModuleFormat

namespace TapeLang

/-! ## Shifts -/

namespace Checksum

theorem isOdd_iff (r : UInt32) : r &&& 1 = 1 ↔ r.toNat % 2 = 1 := by
  rw [← UInt32.toNat_inj, UInt32.toNat_and]
  show r.toNat &&& 1 = 1 ↔ _
  rw [Nat.and_one_is_mod]

theorem toNat_shiftRight_one (r : UInt32) : (r >>> 1).toNat = r.toNat / 2 := by
  rw [UInt32.toNat_shiftRight]
  exact Nat.shiftRight_one _

/-- What the bit that is shifted out brings into the register. -/
def carry (r : UInt32) : UInt32 :=
  if r.toNat % 2 = 1 then polynomial else 0

theorem shift_eq (r : UInt32) : shift r = (r >>> 1) ^^^ carry r := by
  unfold shift carry
  simp only [isOdd_iff]
  split
  · rfl
  · rw [UInt32.xor_zero]

theorem carry_xor (r s : UInt32) : carry (r ^^^ s) = carry r ^^^ carry s := by
  have parity : (r ^^^ s).toNat % 2 = (r.toNat % 2 + s.toNat % 2) % 2 := by
    rw [UInt32.toNat_xor, Nat.xor_mod_two_eq, Nat.add_mod]
  simp only [carry, parity]
  rcases Nat.mod_two_eq_zero_or_one r.toNat with hr | hr <;>
    rcases Nat.mod_two_eq_zero_or_one s.toNat with hs | hs <;> rw [hr, hs] <;> decide

/-- A shift is linear in exclusive or. -/
theorem shift_xor (r s : UInt32) : shift (r ^^^ s) = shift r ^^^ shift s := by
  rw [shift_eq, shift_eq, shift_eq, carry_xor, UInt32.shiftRight_xor]
  ac_rfl

/-- Only the empty register is shifted to the empty register: the polynomial has its top bit set,
which no other bit of the register can clear. -/
theorem eq_zero_of_shift {r : UInt32} (h : shift r = 0) : r = 0 := by
  have half := toNat_shiftRight_one r
  have small := r.toNat_lt
  rw [shift_eq, UInt32.xor_eq_zero_iff] at h
  rw [h, carry] at half
  apply UInt32.toNat_inj.1
  split at half
  · have large : polynomial.toNat = 0xEDB88320 := rfl
    omega
  · have none : (0 : UInt32).toNat = 0 := rfl
    omega

theorem shifts_xor (n : Nat) (r s : UInt32) : shifts n (r ^^^ s) = shifts n r ^^^ shifts n s := by
  induction n generalizing r s with
  | zero => rfl
  | succ n ih => rw [shifts, shifts, shifts, shift_xor, ih]

/-- Shifts lose nothing of the register. -/
theorem shifts_inj {n : Nat} {r s : UInt32} (h : shifts n r = shifts n s) : r = s := by
  induction n generalizing r s with
  | zero => exact h
  | succ n ih =>
    have shifted : shift (r ^^^ s) = 0 := by
      rw [shift_xor, UInt32.xor_eq_zero_iff]
      exact ih h
    exact UInt32.xor_eq_zero_iff.1 (eq_zero_of_shift shifted)

theorem shifts_add (m n : Nat) (r : UInt32) : shifts (m + n) r = shifts n (shifts m r) := by
  induction m generalizing r with
  | zero => rw [Nat.zero_add, shifts]
  | succ m ih => rw [Nat.add_right_comm, shifts, shifts, ih]

theorem toNat_toUInt32 {n : Nat} (fits : n < 2 ^ 32) : n.toUInt32.toNat = n := by
  rw [Nat.toUInt32_eq, UInt32.toNat_ofNat']
  exact Nat.mod_eq_of_lt fits

/-- Bits above those that are shifted out only move down. -/
theorem shifts_of_dvd (bits : Nat) {n : Nat} (fits : 2 ^ bits * n < 2 ^ 32) :
    shifts bits (2 ^ bits * n).toUInt32 = n.toUInt32 := by
  induction bits with
  | zero => rw [Nat.pow_zero, Nat.one_mul, shifts]
  | succ bits ih =>
    rw [Nat.pow_succ, Nat.mul_right_comm] at fits ⊢
    have value := toNat_toUInt32 fits
    have once : shift (2 ^ bits * n * 2).toUInt32 = (2 ^ bits * n).toUInt32 := by
      apply UInt32.toNat_inj.1
      rw [shift_eq, carry, if_neg (by omega), UInt32.xor_zero, toNat_shiftRight_one, value,
        toNat_toUInt32 (by omega)]
      omega
    rw [shifts, once, ih (by omega)]

/-! ## The register -/

/-- The register after bytes have been absorbed. -/
def register (r : UInt32) (bytes : List UInt8) : UInt32 :=
  bytes.foldl absorb r

theorem register_append (r : UInt32) (a b : List UInt8) :
    register r (a ++ b) = register (register r a) b :=
  List.foldl_append

/-- Bytes absorbed lose nothing of the register before them. -/
theorem register_inj {bytes : List UInt8} {r s : UInt32} (h : register r bytes = register s bytes) :
    r = s := by
  induction bytes generalizing r s with
  | nil => exact h
  | cons b bytes ih =>
    have absorbed : absorb r b = absorb s b := ih h
    exact (UInt32.xor_left_inj _).1 (shifts_inj absorbed)

/-- Low bits and what stands above them have no bit in common. -/
theorem xor_eq_add {low k : Nat} (small : low < 2 ^ k) (n : Nat) :
    low ^^^ 2 ^ k * n = 2 ^ k * n + low := by
  apply Nat.eq_of_testBit_eq
  intro i
  rw [Nat.testBit_xor, Nat.testBit_two_pow_mul, Nat.testBit_two_pow_mul_add n small]
  by_cases below : i < k
  · simp [below, Nat.not_le.2 below]
  · have above : k ≤ i := Nat.not_lt.1 below
    have none : low.testBit i = false :=
      Nat.testBit_lt_two_pow (Nat.lt_of_lt_of_le small (Nat.pow_le_pow_right (by decide) above))
    simp [below, above, none]

/-- **Up to four bytes are absorbed as one word**, least significant byte first. -/
theorem register_eq_shifts {bytes : List UInt8} (few : bytes.length ≤ 4) (r : UInt32) :
    register r bytes = shifts (8 * bytes.length) (r ^^^ (Word.ofLittleEndian bytes).toUInt32) := by
  induction bytes generalizing r with
  | nil =>
    show r = r ^^^ 0
    rw [UInt32.xor_zero]
  | cons b bytes ih =>
    rw [List.length_cons] at few
    -- The word of the bytes behind the first one leaves a byte free below it.
    have room : 2 ^ 8 * Word.ofLittleEndian bytes < 2 ^ 32 := by
      have bound := Word.ofLittleEndian_lt bytes
      have three : 256 ^ bytes.length ≤ 256 ^ 3 := Nat.pow_le_pow_right (by decide) (by omega)
      omega
    have word : (Word.ofLittleEndian (b :: bytes)).toUInt32 =
        b.toUInt32 ^^^ (2 ^ 8 * Word.ofLittleEndian bytes).toUInt32 := by
      have apart : b.toNat ^^^ 2 ^ 8 * Word.ofLittleEndian bytes =
          Word.ofLittleEndian (b :: bytes) := by
        rw [xor_eq_add b.toNat_lt, Word.ofLittleEndian_cons]
        omega
      have low : UInt32.ofNat b.toNat = b.toUInt32 := by
        apply UInt32.toNat_inj.1
        rw [UInt32.toNat_ofNat', UInt8.toNat_toUInt32]
        exact Nat.mod_eq_of_lt (Nat.lt_trans b.toNat_lt (by decide))
      rw [← apart, Nat.toUInt32_eq, Nat.toUInt32_eq, UInt32.ofNat_xor, low]
    calc register r (b :: bytes)
        = register (absorb r b) bytes := rfl
      _ = shifts (8 * bytes.length) (absorb r b ^^^ (Word.ofLittleEndian bytes).toUInt32) :=
          ih (by omega) _
      _ = shifts (8 * bytes.length) (shifts 8 (r ^^^ b.toUInt32 ^^^
            (2 ^ 8 * Word.ofLittleEndian bytes).toUInt32)) := by
          rw [absorb, shifts_xor 8 (r ^^^ b.toUInt32), shifts_of_dvd 8 room]
      _ = shifts (8 * (b :: bytes).length) (r ^^^ (Word.ofLittleEndian (b :: bytes)).toUInt32) := by
          rw [← shifts_add, word, UInt32.xor_assoc, List.length_cons, Nat.mul_add, Nat.add_comm]

/-- Up to four bytes can be told from any others by the register they leave. -/
theorem eq_of_register_eq {a b : List UInt8} (few : a.length ≤ 4) (length : a.length = b.length)
    {r : UInt32} (h : register r a = register r b) : a = b := by
  have word (bytes : List UInt8) (few : bytes.length ≤ 4) : Word.ofLittleEndian bytes < 2 ^ 32 := by
    have bound := Word.ofLittleEndian_lt bytes
    have four : 256 ^ bytes.length ≤ 256 ^ 4 := Nat.pow_le_pow_right (by decide) few
    omega
  rw [register_eq_shifts few, register_eq_shifts (length ▸ few), ← length] at h
  have words := congrArg UInt32.toNat ((UInt32.xor_right_inj r).1 (shifts_inj h))
  rw [toNat_toUInt32 (word a few), toNat_toUInt32 (word b (length ▸ few))] at words
  rw [← Word.littleEndian_ofLittleEndian a, ← Word.littleEndian_ofLittleEndian b, words, length]

end Checksum

/-! ## Signed bytes -/

namespace ModuleFile

open Checksum

/-- Bytes with their checksum behind them leave the same register, whatever they are. -/
theorem register_signed (bytes : List UInt8) :
    register 0xFFFFFFFF (signed bytes) = shifts 32 0xFFFFFFFF := by
  have four : (field (crc32 bytes).toNat).length ≤ 4 := Nat.le_of_eq (length_field _)
  have word : (Word.ofLittleEndian (field (crc32 bytes).toNat)).toUInt32 = crc32 bytes := by
    rw [field, Word.ofLittleEndian_littleEndian, Nat.mod_eq_of_lt (crc32 bytes).toNat_lt,
      Nat.toUInt32_eq, UInt32.ofNat_toNat]
  rw [signed, register_append, register_eq_shifts four, word, length_field]
  show shifts 32 (register _ bytes ^^^ (register 0xFFFFFFFF bytes ^^^ 0xFFFFFFFF)) = _
  rw [← UInt32.xor_assoc, UInt32.xor_self, UInt32.zero_xor]

/-- Bytes that differ at most in four consecutive places are the same before and behind them. -/
theorem exists_window {a b : List UInt8} (length : a.length = b.length) (long : 4 ≤ a.length)
    {first : Nat} (near : ∀ i, a[i]? ≠ b[i]? → first ≤ i ∧ i < first + 4) :
    ∃ before here there behind, here.length = 4 ∧ there.length = 4 ∧
      a = before ++ (here ++ behind) ∧ b = before ++ (there ++ behind) := by
  -- Four places that end inside the bytes and hold all differences.
  obtain ⟨start, inside, covers⟩ : ∃ start, start + 4 ≤ a.length ∧
      ∀ i, a[i]? ≠ b[i]? → start ≤ i ∧ i < start + 4 := by
    refine ⟨min first (a.length - 4), by omega, fun i differ => ?_⟩
    have place := near i differ
    have valid : i < a.length := by
      by_contra beyond
      rw [List.getElem?_eq_none (by omega), List.getElem?_eq_none (by omega)] at differ
      exact differ rfl
    omega
  have before : a.take start = b.take start := by
    apply List.ext_getElem?
    intro i
    rw [List.getElem?_take, List.getElem?_take]
    split
    · by_contra differ
      have := covers i differ
      omega
    · rfl
  have behind : a.drop (start + 4) = b.drop (start + 4) := by
    apply List.ext_getElem?
    intro i
    rw [List.getElem?_drop, List.getElem?_drop]
    by_contra differ
    have := covers _ differ
    omega
  refine ⟨a.take start, (a.drop start).take 4, (b.drop start).take 4, a.drop (start + 4), ?_, ?_,
    ?_, ?_⟩
  · rw [List.length_take, List.length_drop]
    omega
  · rw [List.length_take, List.length_drop]
    omega
  · rw [← List.drop_drop, List.take_append_drop, List.take_append_drop]
  · rw [before, behind, ← List.drop_drop, List.take_append_drop, List.take_append_drop]

/-- Signed bytes that differ at most in four consecutive places do not differ. -/
theorem signed_eq_of_near {a b : List UInt8} (length : (signed a).length = (signed b).length)
    {first : Nat} (near : ∀ i, (signed a)[i]? ≠ (signed b)[i]? → first ≤ i ∧ i < first + 4) :
    signed a = signed b := by
  obtain ⟨before, here, there, behind, four, four', left, right⟩ :=
    exists_window length (by rw [length_signed]; omega) near
  have registers := (register_signed a).trans (register_signed b).symm
  rw [left, right, register_append, register_append, register_append, register_append] at registers
  have same :=
    eq_of_register_eq (Nat.le_of_eq four) (four.trans four'.symm) (register_inj registers)
  rw [left, right, same]

/-! ## Modules -/

theorem fieldAt_encode_magic (b : Bytecode) : fieldAt (encode b) 0 = magic := by
  rw [encode_eq_signed, signed, body, List.append_assoc, List.append_assoc, List.append_assoc,
    List.append_assoc]
  exact fieldAt_append (by decide) [] _

theorem fieldAt_encode_version (b : Bytecode) : fieldAt (encode b) 4 = version := by
  rw [encode_eq_signed, signed, body, List.append_assoc, List.append_assoc, List.append_assoc,
    List.append_assoc]
  exact fieldAt_append (by decide) (field magic) _

/-- **Damage within four consecutive bytes is always found.** Bytes as many as those of a module,
that differ from it, but only in four consecutive places, are not read as any program. If the magic
and the version are whole, it is the checksum that tells. -/
theorem decode_of_damage (b : Bytecode) (bytes : List UInt8) (first : Nat)
    (length : bytes.length = (encode b).length) (damaged : bytes ≠ encode b)
    (near : ∀ i, bytes[i]? ≠ (encode b)[i]? → first ≤ i ∧ i < first + 4) :
    (∃ e, decode bytes = .error e) ∧
      ((∀ i < 8, bytes[i]? = (encode b)[i]?) → decode bytes = .error .badChecksum) := by
  have long : 20 ≤ bytes.length := by
    have := length_body b
    rw [length, encode_eq_signed, length_signed]
    omega
  have unsigned (m : List UInt8) : bytes ≠ signed m := by
    rintro rfl
    exact damaged (signed_eq_of_near length near)
  constructor
  · cases read : decode bytes with
    | error e => exact ⟨e, rfl⟩
    | ok c =>
      obtain ⟨-, extra, same⟩ := decode_eq_ok_iff.1 read
      exact absurd same (unsigned _)
  · intro header
    have front : bytes.take 8 = (encode b).take 8 := by
      apply List.ext_getElem?
      intro i
      rw [List.getElem?_take, List.getElem?_take]
      split
      · exact header i ‹_›
      · rfl
    have same {offset : Nat} (inside : offset + 4 ≤ 8) :
        fieldAt bytes offset = fieldAt (encode b) offset := by
      rw [← fieldAt_take inside, front, fieldAt_take inside]
    have magic_ok : fieldAt bytes 0 = magic := by
      rw [same (by decide), fieldAt_encode_magic]
    have version_ok : fieldAt bytes 4 = version := by
      rw [same (by decide), fieldAt_encode_version]
    have mismatch : (crc32 (bytes.take (bytes.length - 4))).toNat ≠
        fieldAt bytes (bytes.length - 4) :=
      fun checked => unsigned _ (eq_signed (by omega) checked)
    have enough : ¬ bytes.length < leastSize := by
      rw [leastSize]
      omega
    simp only [decode]
    rw [if_neg enough, if_neg (not_not.2 magic_ok), if_neg (not_not.2 version_ok), if_pos mismatch]

/-- A module of which the last byte of the code and the first two of the checksum are damaged. -/
theorem decode_of_damage_at_checksum :
    encode ⟨#[2, 4, 20], #[]⟩ = body ⟨#[2, 4, 20], #[]⟩ ++ [211, 109, 237, 94] ∧
      decode ((body ⟨#[2, 4, 20], #[]⟩).dropLast ++ [21, 212, 110, 237, 94]) =
        .error .badChecksum := by
  have whole : encode ⟨#[2, 4, 20], #[]⟩ = body ⟨#[2, 4, 20], #[]⟩ ++ [211, 109, 237, 94] := by
    decide +kernel
  refine ⟨whole, (decode_of_damage ⟨#[2, 4, 20], #[]⟩ _ 18 ?_ ?_ ?_).2 ?_⟩ <;> rw [whole]
  · decide
  · decide
  · intro i differ
    have places : ∀ j < 23, ((body ⟨#[2, 4, 20], #[]⟩).dropLast ++ [21, 212, 110, 237, 94])[j]? ≠
        (body ⟨#[2, 4, 20], #[]⟩ ++ [211, 109, 237, 94])[j]? → 18 ≤ j ∧ j < 18 + 4 := by decide
    refine places i ?_ differ
    by_contra beyond
    rw [List.getElem?_eq_none (Nat.not_lt.1 beyond),
      List.getElem?_eq_none (Nat.not_lt.1 beyond)] at differ
    exact differ rfl
  · decide

end ModuleFile

end TapeLang
