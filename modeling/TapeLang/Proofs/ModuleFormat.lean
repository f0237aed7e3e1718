/-
# Modules read back

A module is the bytes of its fields and units with their checksum behind them. Reading is opened
field by field and unit by unit: each part can be read just when the bytes begin with it,
`readChunk_eq_ok_iff` for a unit and `readProcedures_eq_ok_iff` for those of all procedures. So
bytes are read as a program just when they begin with what is written for it and end with a checksum
of all before it: `decode_eq_ok_iff`. Nothing but the bytes between the last unit and the checksum
is free, and these are no part of the program.
-/
import TapeLang.ModuleFile
import TapeLang.Proofs.Fetch

namespace TapeLang

/-! ## Words of bytes -/

namespace Word

theorem ofLittleEndian_lt (bytes : List UInt8) : ofLittleEndian bytes < 256 ^ bytes.length := by
  induction bytes with
  | nil => decide
  | cons b bytes ih =>
    have small := b.toNat_lt
    rw [ofLittleEndian_cons, List.length_cons, Nat.pow_succ]
    omega

/-- Writing back what was read gives the bytes. -/
theorem littleEndian_ofLittleEndian (bytes : List UInt8) :
    littleEndian bytes.length (ofLittleEndian bytes) = bytes := by
  induction bytes with
  | nil => rfl
  | cons b bytes ih =>
    have small := b.toNat_lt
    have low : (b.toNat + 256 * ofLittleEndian bytes).toUInt8 = b := by
      apply UInt8.toNat.inj
      rw [Nat.toUInt8_eq, UInt8.toNat_ofNat']
      omega
    have high : (b.toNat + 256 * ofLittleEndian bytes) / 256 = ofLittleEndian bytes := by omega
    rw [ofLittleEndian_cons, List.length_cons, littleEndian, low, high, ih]

end Word

/-- The numbers that a module keeps of bytecode fit their fields. -/
structure Bytecode.Storable (b : Bytecode) : Prop extends b.Short where
  count : b.procedures.size < 2 ^ 32

namespace ModuleFile

/-! ## Fields -/

@[simp] theorem length_field (n : Nat) : (field n).length = 4 :=
  Word.length_littleEndian 4 n

/-- A field is read back from where it stands. -/
theorem fieldAt_append {n : Nat} (fits : n < 2 ^ 32) (before after : List UInt8) :
    fieldAt (before ++ (field n ++ after)) before.length = n := by
  have here : ((before ++ (field n ++ after)).drop before.length).take 4 = field n := by
    rw [List.drop_left, ← length_field n, List.take_left]
  rw [fieldAt, here, field, Word.ofLittleEndian_littleEndian]
  exact Nat.mod_eq_of_lt fits

/-- Four bytes are the field of the number that is read from them. -/
theorem field_fieldAt {bytes : List UInt8} {offset : Nat} (inside : offset + 4 ≤ bytes.length) :
    field (fieldAt bytes offset) = (bytes.drop offset).take 4 := by
  have four : ((bytes.drop offset).take 4).length = 4 := by
    rw [List.length_take, List.length_drop]
    omega
  have back := Word.littleEndian_ofLittleEndian ((bytes.drop offset).take 4)
  rwa [four] at back

/-- Bytes from an offset on begin with the field that is read there. -/
theorem drop_eq_field_append (bytes : List UInt8) (offset : Nat)
    (inside : offset + 4 ≤ bytes.length) :
    bytes.drop offset = field (fieldAt bytes offset) ++ bytes.drop (offset + 4) := by
  rw [field_fieldAt inside, ← List.drop_drop, List.take_append_drop]

theorem fieldAt_lt (bytes : List UInt8) (offset : Nat) : fieldAt bytes offset < 2 ^ 32 := by
  have bound := Word.ofLittleEndian_lt ((bytes.drop offset).take 4)
  have four : ((bytes.drop offset).take 4).length ≤ 4 := List.length_take_le ..
  calc fieldAt bytes offset < 256 ^ ((bytes.drop offset).take 4).length := bound
    _ ≤ 256 ^ 4 := Nat.pow_le_pow_right (by decide) four
    _ = 2 ^ 32 := by decide

/-! ## Units -/

@[simp] theorem length_chunk (code : Code) : (chunk code).length = 4 + code.size := by
  simp [chunk]

/-- A unit can be read just when the bytes begin with it. -/
theorem readChunk_eq_ok_iff {bytes rest : List UInt8} {code : Code} :
    readChunk bytes.length bytes = .ok (code, rest) ↔
      code.size < 2 ^ 32 ∧ bytes = chunk code ++ rest := by
  constructor
  · intro h
    simp only [readChunk] at h
    split at h
    · cases h
    split at h
    · cases h
    split at h
    · cases h
    · rename_i inside
      simp only [Except.ok.injEq, Prod.mk.injEq] at h
      obtain ⟨rfl, rfl⟩ := h
      have size : ((bytes.drop 4).take (fieldAt bytes 0)).toArray.size = fieldAt bytes 0 := by
        rw [List.size_toArray, List.length_take, List.length_drop]
        omega
      have front := drop_eq_field_append bytes 0 (by omega)
      refine ⟨size.trans_lt (fieldAt_lt bytes 0), ?_⟩
      rw [chunk, size, List.append_assoc, List.take_append_drop]
      exact front
  · rintro ⟨fits, rfl⟩
    have length : fieldAt (chunk code ++ rest) 0 = code.size := by
      rw [chunk, List.append_assoc]
      exact fieldAt_append fits [] _
    have behind : (chunk code ++ rest).drop 4 = code.toList ++ rest := by
      rw [chunk, List.append_assoc, ← length_field code.size, List.drop_left]
    have whole : (chunk code ++ rest).length = 4 + code.size + rest.length := by simp
    simp only [readChunk, length, behind, whole]
    rw [if_neg (by omega), if_neg (by omega), if_neg (by omega), ← Array.length_toList,
      List.take_left, List.drop_left]

/-- Units can be read just when the bytes begin with them, one after another. -/
theorem readProcedures_eq_ok_iff {done all : Array Code} {count : Nat} {bytes : List UInt8} :
    readProcedures done count bytes.length bytes = .ok all ↔
      ∃ (units : List Code) (extra : List UInt8), units.length = count ∧
        (∀ unit ∈ units, unit.size < 2 ^ 32) ∧ bytes = units.flatMap chunk ++ extra ∧
        all = done ++ units.toArray := by
  induction count generalizing done bytes with
  | zero =>
    constructor
    · intro h
      cases h
      exact ⟨[], bytes, rfl, nofun, rfl, by simp⟩
    · rintro ⟨units, extra, none, -, -, rfl⟩
      rw [List.eq_nil_of_length_eq_zero none]
      simp [readProcedures]
  | succ count ih =>
    rw [readProcedures]
    constructor
    · intro h
      split at h
      · cases h
      · rename_i code rest read
        obtain ⟨fits, rfl⟩ := readChunk_eq_ok_iff.1 read
        rw [List.length_append, length_chunk, Nat.add_sub_cancel_left] at h
        obtain ⟨units, extra, rfl, others, rfl, rfl⟩ := ih.1 h
        refine ⟨code :: units, extra, rfl, ?_, by simp, by simp⟩
        intro unit member
        rcases List.mem_cons.1 member with rfl | later
        · exact fits
        · exact others unit later
    · rintro ⟨units, extra, length, fits, rfl, rfl⟩
      cases units with
      | nil => cases length
      | cons code units =>
        have read := readChunk_eq_ok_iff.2
          ⟨fits code List.mem_cons_self, List.append_assoc (chunk code) (units.flatMap chunk) extra⟩
        rw [List.flatMap_cons, read]
        dsimp only
        rw [List.append_assoc, List.length_append, length_chunk, Nat.add_sub_cancel_left, ih]
        exact ⟨units, extra, Nat.succ.inj length,
          fun unit member => fits unit (List.mem_cons_of_mem _ member), rfl, by simp⟩

/-- The units of a program can be read just when the bytes begin with them. -/
theorem readUnits_eq_ok_iff {count : Nat} {bytes : List UInt8} {b : Bytecode} :
    readUnits count bytes = .ok b ↔
      b.procedures.size = count ∧ b.Short ∧
        ∃ extra, bytes = chunk b.main ++ b.procedures.toList.flatMap chunk ++ extra := by
  rw [readUnits]
  constructor
  · intro h
    split at h
    · cases h
    rename_i main rest read
    obtain ⟨fits, rfl⟩ := readChunk_eq_ok_iff.1 read
    split at h
    · cases h
    rename_i procedures readAll
    cases h
    obtain ⟨units, extra, length, others, rfl, rfl⟩ := readProcedures_eq_ok_iff.1 readAll
    refine ⟨by simpa using length, ⟨fits, ?_⟩, extra, by simp⟩
    intro unit member
    exact others unit (by simpa using member)
  · rintro ⟨rfl, short, extra, rfl⟩
    have read := readChunk_eq_ok_iff.2
      ⟨short.main, List.append_assoc (chunk b.main) (b.procedures.toList.flatMap chunk) extra⟩
    have readAll : readProcedures #[] _ _ _ = _ := readProcedures_eq_ok_iff.2
      ⟨b.procedures.toList, extra, b.procedures.length_toList,
        fun unit member => short.procedures unit (Array.mem_toList_iff.1 member), rfl, rfl⟩
    rw [read]
    dsimp only
    rw [readAll]
    simp

/-! ## Whole modules -/

/-- Bytes with their checksum behind them. -/
def signed (bytes : List UInt8) : List UInt8 :=
  bytes ++ field (Checksum.crc32 bytes).toNat

theorem encode_eq_signed (b : Bytecode) : encode b = signed (body b) := rfl

@[simp] theorem length_signed (bytes : List UInt8) : (signed bytes).length = bytes.length + 4 := by
  simp [signed]

/-- The checksum is read back from behind the bytes. -/
theorem fieldAt_signed (bytes : List UInt8) :
    fieldAt (signed bytes) bytes.length = (Checksum.crc32 bytes).toNat := by
  rw [signed, ← List.append_nil (field _)]
  exact fieldAt_append (UInt32.toNat_lt _) bytes []

theorem take_signed (bytes : List UInt8) : (signed bytes).take bytes.length = bytes :=
  List.take_left

theorem length_body (b : Bytecode) : 16 ≤ (body b).length := by
  simp only [body, List.length_append, length_field, length_chunk]
  omega

/-- The fields and units of a program stand one after another. -/
theorem body_append (b : Bytecode) (extra : List UInt8) :
    body b ++ extra = field magic ++ (field version ++ (field b.procedures.size ++
      (chunk b.main ++ b.procedures.toList.flatMap chunk ++ extra))) := by
  simp only [body, List.append_assoc]

/-- The fields before a place are those of the bytes up to it. -/
theorem fieldAt_take {bytes : List UInt8} {offset place : Nat} (before : offset + 4 ≤ place) :
    fieldAt (bytes.take place) offset = fieldAt bytes offset := by
  rw [fieldAt, fieldAt, List.drop_take, List.take_take, Nat.min_eq_left (by omega)]

/-- Bytes with the three fields of a header begin with these. -/
theorem eq_header_append (bytes : List UInt8) (long : 12 ≤ bytes.length) :
    bytes = field (fieldAt bytes 0) ++ (field (fieldAt bytes 4) ++
      (field (fieldAt bytes 8) ++ bytes.drop 12)) := by
  rw [← drop_eq_field_append bytes 8 (by omega), ← drop_eq_field_append bytes 4 (by omega),
    ← drop_eq_field_append bytes 0 (by omega), List.drop_zero]

/-- What has its checksum behind it, as that is read, is signed. -/
theorem eq_signed {bytes : List UInt8} (long : 4 ≤ bytes.length)
    (checked : (Checksum.crc32 (bytes.take (bytes.length - 4))).toNat =
      fieldAt bytes (bytes.length - 4)) : bytes = signed (bytes.take (bytes.length - 4)) := by
  have last : bytes.drop (bytes.length - 4) = field (fieldAt bytes (bytes.length - 4)) := by
    rw [drop_eq_field_append bytes _ (by omega), List.drop_of_length_le (by omega), List.append_nil]
  rw [signed, checked, ← last, List.take_append_drop]

/-- Bytes are a program just when they are signed and begin with what is written for the program. -/
theorem decode_eq_ok_iff {bytes : List UInt8} {b : Bytecode} :
    decode bytes = .ok b ↔ b.Storable ∧ ∃ extra, bytes = signed (body b ++ extra) := by
  constructor
  · intro h
    simp only [decode] at h
    split at h
    · cases h
    rename_i long
    simp only [leastSize, Nat.not_lt] at long
    split at h
    · cases h
    rename_i first
    split at h
    · cases h
    rename_i second
    split at h
    · cases h
    rename_i checked
    rw [not_not] at first second checked
    obtain ⟨count, short, extra, units⟩ := readUnits_eq_ok_iff.1 h
    refine ⟨⟨short, count ▸ fieldAt_lt bytes 8⟩, extra, ?_⟩
    -- All that stands before the checksum is the header, as it was read, and the units.
    have front : bytes.take (bytes.length - 4) = body b ++ extra := by
      rw [eq_header_append (bytes.take (bytes.length - 4)) (by rw [List.length_take]; omega),
        fieldAt_take (by omega), fieldAt_take (by omega), fieldAt_take (by omega), first, second,
        ← count, units, body_append]
    rw [← front]
    exact eq_signed (by omega) checked
  · rintro ⟨storable, extra, rfl⟩
    have long := length_body b
    have place : (signed (body b ++ extra)).length - 4 = (body b ++ extra).length := by
      rw [length_signed, Nat.add_sub_cancel]
    have first : fieldAt (signed (body b ++ extra)) 0 = magic := by
      rw [signed, body_append, List.append_assoc]
      exact fieldAt_append (by decide) [] _
    have second : fieldAt (signed (body b ++ extra)) 4 = version := by
      rw [signed, body_append, List.append_assoc, List.append_assoc]
      exact fieldAt_append (by decide) (field magic) _
    have third : fieldAt (signed (body b ++ extra)) 8 = b.procedures.size := by
      rw [signed, body_append, List.append_assoc, List.append_assoc, List.append_assoc,
        ← List.append_assoc (field magic)]
      exact fieldAt_append storable.count (field magic ++ field version) _
    have units : (body b ++ extra).drop 12 =
        chunk b.main ++ b.procedures.toList.flatMap chunk ++ extra := by
      rw [body_append]
      rfl
    have enough : ¬ (signed (body b ++ extra)).length < leastSize := by
      rw [length_signed, List.length_append, leastSize]
      omega
    simp only [decode]
    rw [if_neg enough, place, take_signed, fieldAt_signed, first, second, third, units,
      if_neg (by simp), if_neg (by simp), if_neg (by simp)]
    exact readUnits_eq_ok_iff.2 ⟨rfl, storable.toShort, extra, rfl⟩

/-- Nothing is read as two programs, and the bytes that are free can be told from the program. -/
theorem signed_body_inj {b c : Bytecode} {extra more : List UInt8} (hb : b.Storable)
    (hc : c.Storable) (same : signed (body b ++ extra) = signed (body c ++ more)) :
    b = c ∧ extra = more := by
  have first := decode_eq_ok_iff.2 ⟨hb, extra, rfl⟩
  have second := decode_eq_ok_iff.2 ⟨hc, more, rfl⟩
  rw [same, second] at first
  cases first
  have fronts := congrArg (fun bytes => bytes.take (bytes.length - 4)) same
  simp only [length_signed, Nat.add_sub_cancel, take_signed] at fronts
  exact ⟨rfl, List.append_cancel_left fronts⟩

/-- **Reading undoes writing, and takes nothing else.** For bytecode whose numbers fit their fields,
bytes are read as it just when they are its module without the checksum, that is the magic, the
version, the number of procedures and the units after their lengths, then any further bytes, and the
checksum of all these. So a module reads back as what it was written for, and what can be read and
is no such module has further bytes. -/
theorem decode_undoes_encode (bytes : List UInt8) (b : Bytecode) (storable : b.Storable) :
    (decode bytes = .ok b ↔ ∃ extra, bytes =
      (encode b).take ((encode b).length - 4) ++ extra ++
        field (Checksum.crc32 ((encode b).take ((encode b).length - 4) ++ extra)).toNat) ∧
    (encode b).take ((encode b).length - 4) =
      field 0x4E524250 ++ field 1 ++ field b.procedures.size ++
      (field b.main.size ++ b.main.toList) ++
        b.procedures.toList.flatMap (fun unit => field unit.size ++ unit.toList) ∧
    decode (encode b) = .ok b ∧
    ((∃ c, decode bytes = .ok c) ∧ (∀ c : Bytecode, c.Storable → bytes ≠ encode c) ↔
      ∃ (c : Bytecode) (extra : List UInt8), c.Storable ∧ extra ≠ [] ∧
        bytes = body c ++ extra ++ field (Checksum.crc32 (body c ++ extra)).toNat) := by
  have front : (encode b).take ((encode b).length - 4) = body b := by
    rw [encode_eq_signed, length_signed, Nat.add_sub_cancel, take_signed]
  have written (c : Bytecode) : encode c = signed (body c ++ []) := by
    rw [List.append_nil, encode_eq_signed]
  refine ⟨?_, front, decode_eq_ok_iff.2 ⟨storable, [], written b⟩, ?_⟩
  · rw [front, decode_eq_ok_iff]
    exact ⟨fun h => h.2, fun h => ⟨storable, h⟩⟩
  · constructor
    · rintro ⟨⟨c, read⟩, other⟩
      obtain ⟨fits, extra, rfl⟩ := decode_eq_ok_iff.1 read
      refine ⟨c, extra, fits, ?_, rfl⟩
      rintro rfl
      exact other c fits (written c).symm
    · rintro ⟨c, extra, fits, more, rfl⟩
      refine ⟨⟨c, decode_eq_ok_iff.2 ⟨fits, extra, rfl⟩⟩, ?_⟩
      intro d hd same
      exact more (signed_body_inj fits hd (same.trans (written d))).2

/-- A program with an empty procedure and one that is not, and its module with a further byte. -/
theorem decode_undoes_encode_of_two :
    (⟨#[2, 4, 20], #[#[], #[19]]⟩ : Bytecode).Storable ∧
      decode (signed (body ⟨#[2, 4, 20], #[#[], #[19]]⟩ ++ [7])) =
        .ok ⟨#[2, 4, 20], #[#[], #[19]]⟩ ∧
      decode (encode ⟨#[2, 4, 20], #[#[], #[19]]⟩) = .ok ⟨#[2, 4, 20], #[#[], #[19]]⟩ := by
  have storable : (⟨#[2, 4, 20], #[#[], #[19]]⟩ : Bytecode).Storable :=
    ⟨⟨by decide, by decide⟩, by decide⟩
  have reading :=
    decode_undoes_encode (signed (body ⟨#[2, 4, 20], #[#[], #[19]]⟩ ++ [7])) _ storable
  exact ⟨storable, reading.1.2 ⟨[7], rfl⟩, reading.2.2.1⟩

end ModuleFile

end TapeLang
