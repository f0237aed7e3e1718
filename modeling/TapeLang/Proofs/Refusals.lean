/-
# Why bytes are refused as a module

Between the header and the checksum stand the units, each behind its length, so that the place of
every unit follows from the lengths before it: `unitStart`. The units are walked over in this order,
and the first one that does not end inside these bytes is the one that is named. With the checks of
the magic, the version and the checksum before it this says of any bytes what is made of them:
`classified`.

The checksum alone would not keep out the front of a module, since the bytes of a unit may be such
that some front of the module ends in its own checksum. But the count and the lengths say where the
last unit ends, and no front of a module has room for that and for a checksum behind it:
`decode_of_truncated`.
-/
import TapeLang.Proofs.Damage

namespace TapeLang.ModuleFile

/-! ## The places of the units -/

/-- The bytes before the checksum. -/
def front (bytes : List UInt8) : List UInt8 :=
  bytes.take (bytes.length - 4)

/-- Where a unit begins: the main unit, of number zero, behind the header, and each other one behind
the length and the bytes of the unit before it. -/
def unitStart (bytes : List UInt8) : Nat → Nat
  | 0 => 12
  | k + 1 => unitStart bytes k + 4 + fieldAt bytes (unitStart bytes k)

/-- The unit of a number. -/
def unitAt (bytes : List UInt8) (k : Nat) : Code :=
  ((bytes.drop (unitStart bytes k + 4)).take (fieldAt bytes (unitStart bytes k))).toArray

/-- A unit fits if the bytes do not end before it does. -/
def Fits (bytes : List UInt8) (k : Nat) : Prop :=
  unitStart bytes (k + 1) ≤ bytes.length

/-- How a unit, before which all others fit, does not fit: no byte is left where its length should
begin, or there are some, but its length is cut or exceeds the bytes that are left behind it. -/
def Lacks (bytes : List UInt8) (k : Nat) : Shortage → Prop
  | .nothingLeft => bytes.length = unitStart bytes k
  | .cutShort => unitStart bytes k < bytes.length ∧
      (bytes.length < unitStart bytes k + 4 ∨
        bytes.length - (unitStart bytes k + 4) < fieldAt bytes (unitStart bytes k))

/-- The error that names a unit. -/
def unitError : Nat → Shortage → Error
  | 0, shortage => .mainUnit shortage
  | id + 1, shortage => .procedureUnit id shortage

variable {bytes : List UInt8} {k count : Nat} {shortage : Shortage}

/-- A unit that lacks something does not fit. -/
theorem Lacks.not_fits (h : Lacks bytes k shortage) : ¬ Fits bytes k := by
  cases shortage <;> simp only [Lacks, Fits, unitStart] at * <;> omega

/-- A unit cannot lack two things. -/
theorem Lacks.unique {other : Shortage} (h : Lacks bytes k shortage) (h' : Lacks bytes k other) :
    shortage = other := by
  cases shortage <;> cases other <;> first | rfl | (simp only [Lacks] at *; omega)

/-- A unit that starts in the bytes and does not fit lacks something. -/
theorem exists_lacks (reached : unitStart bytes k ≤ bytes.length) (beyond : ¬ Fits bytes k) :
    ∃ shortage, Lacks bytes k shortage := by
  rcases Nat.eq_or_lt_of_le reached with ends | inside
  · exact ⟨.nothingLeft, ends.symm⟩
  · refine ⟨.cutShort, inside, ?_⟩
    simp only [Fits, unitStart] at beyond
    omega

/-- Of units from the main one on, all fit, or one is the first that does not. -/
theorem fits_or_lacks (long : 12 ≤ bytes.length) (count : Nat) :
    (∀ k ≤ count, Fits bytes k) ∨
      ∃ k ≤ count, (∀ j < k, Fits bytes j) ∧ ∃ shortage, Lacks bytes k shortage := by
  by_cases all : ∀ k ≤ count, Fits bytes k
  · exact .inl all
  · have some_unit : ∃ k, ¬ (k ≤ count → Fits bytes k) := not_forall.1 all
    classical
    obtain ⟨few, beyond⟩ := Classical.not_imp.1 (Nat.find_spec some_unit)
    have before : ∀ j < Nat.find some_unit, Fits bytes j := fun j earlier =>
      not_not.1 (Nat.find_min some_unit earlier) (Nat.le_trans (Nat.le_of_lt earlier) few)
    refine .inr ⟨Nat.find some_unit, few, before, exists_lacks ?_ beyond⟩
    -- The unit begins where the one before it ends.
    cases first : Nat.find some_unit with
    | zero => exact long
    | succ j => exact before j (by omega)

/-! ## Walking over the units -/

/-- A field of the bytes from an offset on is the field at that offset. -/
theorem fieldAt_drop (bytes : List UInt8) (offset : Nat) :
    fieldAt (bytes.drop offset) 0 = fieldAt bytes offset := by
  rw [fieldAt, fieldAt, List.drop_zero]

/-- A unit that fits is as long as its size field says. -/
theorem size_unitAt (fits : Fits bytes k) :
    (unitAt bytes k).size = fieldAt bytes (unitStart bytes k) := by
  simp only [Fits, unitStart] at fits
  rw [unitAt, List.size_toArray, List.length_take, List.length_drop]
  omega

/-- A unit that fits is read at its place, and leaves what begins at the place of the next one. -/
theorem readChunk_of_fits (fits : Fits bytes k) :
    readChunk (bytes.length - unitStart bytes k) (bytes.drop (unitStart bytes k)) =
      .ok (unitAt bytes k, bytes.drop (unitStart bytes (k + 1))) := by
  simp only [Fits, unitStart] at fits
  simp only [readChunk, fieldAt_drop, List.drop_drop]
  rw [if_neg (by omega), if_neg (by omega), if_neg (by omega)]
  rfl

/-- Reading a unit that lacks something fails, and names what is lacking. -/
theorem readChunk_of_lacks (lacks : Lacks bytes k shortage) :
    readChunk (bytes.length - unitStart bytes k) (bytes.drop (unitStart bytes k)) =
      .error shortage := by
  simp only [readChunk, fieldAt_drop]
  cases shortage with
  | nothingLeft =>
    rw [if_pos (by simp only [Lacks] at lacks; omega)]
  | cutShort =>
    obtain ⟨inside, cut | long⟩ := lacks
    · rw [if_neg (by omega), if_pos (by omega)]
    · rw [if_neg (by omega)]
      split
      · rfl
      · rw [if_pos (by omega)]

/-- What is left for the units behind one that is read. -/
theorem available_of_fits (fits : Fits bytes k) :
    bytes.length - unitStart bytes k - (4 + (unitAt bytes k).size) =
      bytes.length - unitStart bytes (k + 1) := by
  rw [size_unitAt fits, unitStart]
  omega

/-- The units of procedures are read if they all fit. -/
theorem readProcedures_of_fits (count : Nat) (done : Array Code)
    (fits : ∀ j < count, Fits bytes (k + j)) :
    readProcedures done count (bytes.length - unitStart bytes k) (bytes.drop (unitStart bytes k)) =
      .ok (done ++ ((List.range' k count).map (unitAt bytes)).toArray) := by
  induction count generalizing done k with
  | zero => simp [readProcedures]
  | succ count ih =>
    have first : Fits bytes k := fits 0 (by omega)
    have others : ∀ j < count, Fits bytes (k + 1 + j) := fun j few => by
      have := fits (j + 1) (by omega)
      rwa [← Nat.add_assoc, Nat.add_right_comm] at this
    rw [readProcedures, readChunk_of_fits first]
    dsimp only
    rw [available_of_fits first, ih _ others]
    simp [List.range'_succ]

/-- The first unit that does not fit is named, by the number of its procedure. -/
theorem readProcedures_of_lacks (count : Nat) (done : Array Code) {i : Nat} (inside : i < count)
    (before : ∀ j < i, Fits bytes (k + j)) (lacks : Lacks bytes (k + i) shortage) :
    readProcedures done count (bytes.length - unitStart bytes k) (bytes.drop (unitStart bytes k)) =
      .error (.procedureUnit (done.size + i) shortage) := by
  induction count generalizing done k i with
  | zero => omega
  | succ count ih =>
    rw [readProcedures]
    cases i with
    | zero =>
      rw [Nat.add_zero] at lacks
      rw [readChunk_of_lacks lacks, Nat.add_zero]
    | succ i =>
      have first : Fits bytes k := before 0 (by omega)
      have others : ∀ j < i, Fits bytes (k + 1 + j) := fun j few => by
        have := before (j + 1) (by omega)
        rwa [← Nat.add_assoc, Nat.add_right_comm] at this
      rw [readChunk_of_fits first]
      dsimp only
      rw [available_of_fits first,
        ih _ (by omega) others (by rwa [Nat.add_right_comm, Nat.add_assoc]),
        Array.size_push, Nat.add_right_comm, Nat.add_assoc]

/-- The units of a module are read if they all fit. -/
theorem readUnits_of_fits (fits : ∀ k ≤ count, Fits bytes k) :
    readUnits count (bytes.drop 12) =
      .ok ⟨unitAt bytes 0, ((List.range' 1 count).map (unitAt bytes)).toArray⟩ := by
  have main := readChunk_of_fits (fits 0 (by omega))
  have procedures := readProcedures_of_fits (k := 1) count #[] fun j few => fits (1 + j) (by omega)
  rw [unitStart] at main
  rw [readUnits, List.length_drop, main]
  dsimp only
  rw [List.length_drop, procedures]
  simp

/-- Reading a module's units names the first one that does not fit. -/
theorem readUnits_of_lacks (inside : k ≤ count) (before : ∀ j < k, Fits bytes j)
    (lacks : Lacks bytes k shortage) :
    readUnits count (bytes.drop 12) = .error (unitError k shortage) := by
  rw [readUnits, List.length_drop]
  cases k with
  | zero =>
    have main := readChunk_of_lacks lacks
    rw [unitStart] at main
    rw [main]
    rfl
  | succ i =>
    have main := readChunk_of_fits (before 0 (by omega))
    have procedures := readProcedures_of_lacks (k := 1) count #[] (i := i) (by omega)
      (fun j few => before (1 + j) (by omega)) (by rwa [Nat.add_comm])
    rw [unitStart] at main
    rw [main]
    dsimp only
    rw [List.length_drop, procedures]
    simp [unitError]

/-! ## The checks before the units -/

/-- The bytes of the magic. -/
def mark : List UInt8 := [0x50, 0x42, 0x52, 0x4E]

/-- What passes the checks that come before the units. -/
structure Sealed (bytes : List UInt8) : Prop where
  long : 16 ≤ bytes.length
  magic : bytes.take 4 = mark
  version : fieldAt bytes 4 = 1
  checksum : bytes.drop (bytes.length - 4) = field (Checksum.crc32 (front bytes)).toNat

theorem length_front (bytes : List UInt8) : (front bytes).length = bytes.length - 4 := by
  rw [front, List.length_take]
  omega

/-- The first field is the magic number exactly when the first four bytes are the mark. -/
theorem fieldAt_eq_magic_iff (long : 4 ≤ bytes.length) :
    fieldAt bytes 0 = magic ↔ bytes.take 4 = mark := by
  have bytes_eq : field (fieldAt bytes 0) = (bytes.drop 0).take 4 := field_fieldAt (by omega)
  rw [List.drop_zero] at bytes_eq
  constructor
  · intro same
    rw [← bytes_eq, same]
    rfl
  · intro same
    rw [fieldAt, List.drop_zero, same]
    rfl

/-- The checksum that is read is the right one just when its bytes are. -/
theorem fieldAt_eq_iff {n offset : Nat} (fits : n < 2 ^ 32) (last : bytes.length = offset + 4) :
    fieldAt bytes offset = n ↔ bytes.drop offset = field n := by
  have four : (bytes.drop offset).take 4 = bytes.drop offset :=
    List.take_of_length_le (by rw [List.length_drop]; omega)
  have bytes_eq : field (fieldAt bytes offset) = (bytes.drop offset).take 4 :=
    field_fieldAt (by omega)
  constructor
  · intro same
    rw [← four, ← bytes_eq, same]
  · intro same
    rw [fieldAt, four, same, field, Word.ofLittleEndian_littleEndian]
    exact Nat.mod_eq_of_lt fits

/-- Bytes that are too few, or that the mark does not begin, are refused for their magic number. -/
theorem decode_of_unmarked (h : bytes.length < 16 ∨ bytes.take 4 ≠ mark) :
    decode bytes = .error .badMagic := by
  simp only [decode]
  by_cases short : bytes.length < leastSize
  · rw [if_pos short]
  · have long : 16 ≤ bytes.length := Nat.not_lt.1 short
    rw [if_neg short, if_pos]
    exact fun same => h.elim short fun other => other ((fieldAt_eq_magic_iff (by omega)).1 same)

/-- With the magic in front, the version is checked, then the checksum, and then the units are
read. -/
theorem decode_of_marked (long : 16 ≤ bytes.length) (marked : bytes.take 4 = mark) :
    decode bytes =
      if fieldAt bytes 4 ≠ 1 then .error (.badVersion (fieldAt bytes 4))
      else if bytes.drop (bytes.length - 4) ≠ field (Checksum.crc32 (front bytes)).toNat then
        .error .badChecksum
      else readUnits (fieldAt bytes 8) ((front bytes).drop 12) := by
  have enough : ¬ bytes.length < leastSize := Nat.not_lt.2 long
  have first : fieldAt bytes 0 = magic := (fieldAt_eq_magic_iff (by omega)).2 marked
  have last : (Checksum.crc32 (front bytes)).toNat ≠ fieldAt bytes (bytes.length - 4) ↔
      bytes.drop (bytes.length - 4) ≠ field (Checksum.crc32 (front bytes)).toNat :=
    not_congr (eq_comm.trans (fieldAt_eq_iff (UInt32.toNat_lt _) (by omega)))
  simp only [decode]
  rw [if_neg enough, if_neg (not_not.2 first)]
  exact if_congr Iff.rfl rfl (if_congr last rfl rfl)

/-- What passes the checks is read unit by unit. -/
theorem decode_of_sealed (sealed : Sealed bytes) :
    decode bytes = readUnits (fieldAt bytes 8) ((front bytes).drop 12) := by
  rw [decode_of_marked sealed.long sealed.magic, if_neg (not_not.2 sealed.version),
    if_neg (not_not.2 sealed.checksum)]

/-- Of what passes the checks all units are read, or the first one that does not fit is named. -/
theorem decode_cases (sealed : Sealed bytes) :
    ((∀ k ≤ fieldAt bytes 8, Fits (front bytes) k) ∧
      decode bytes = .ok ⟨unitAt (front bytes) 0,
        ((List.range' 1 (fieldAt bytes 8)).map (unitAt (front bytes))).toArray⟩) ∨
    ∃ k ≤ fieldAt bytes 8, (∀ j < k, Fits (front bytes) j) ∧
      ∃ shortage, Lacks (front bytes) k shortage ∧
        decode bytes = .error (unitError k shortage) := by
  have long : 12 ≤ (front bytes).length := by
    have := sealed.long
    rw [length_front]
    omega
  rw [decode_of_sealed sealed]
  rcases fits_or_lacks long (fieldAt bytes 8) with fits | ⟨k, few, before, shortage, lacks⟩
  · exact .inl ⟨fits, readUnits_of_fits fits⟩
  · exact .inr ⟨k, few, before, shortage, lacks, readUnits_of_lacks few before lacks⟩

/-! ## Reading from the front on -/

/-- Reads a number from the front of bytes. -/
def readField (bytes : List UInt8) : Except Shortage (Nat × List UInt8) :=
  if bytes.length = 0 then .error .nothingLeft
  else if bytes.length < 4 then .error .cutShort
  else .ok (fieldAt bytes 0, bytes.drop 4)

/-- Reads a module from the front on, with the numbers of the header one after the other. What is
left over for one of these may be too short: that is a failure to read the header, and none of the
errors of a module. -/
def decodeInOrder (bytes : List UInt8) : Except Shortage (Except Error Bytecode) :=
  if bytes.length < leastSize then .ok (.error .badMagic)
  else do
    let (first, rest) ← readField (front bytes)
    let (second, rest) ← readField rest
    let (count, rest) ← readField rest
    return (
      if first ≠ magic then .error .badMagic
      else if second ≠ version then .error (.badVersion second)
      else if (Checksum.crc32 (front bytes)).toNat ≠ fieldAt bytes (bytes.length - 4) then
        .error .badChecksum
      else readUnits count rest)

/-- Reading a field from an offset on gives the field and leaves the bytes behind it. -/
theorem readField_drop (bytes : List UInt8) (offset : Nat) (inside : offset + 4 ≤ bytes.length) :
    readField (bytes.drop offset) = .ok (fieldAt bytes offset, bytes.drop (offset + 4)) := by
  rw [readField, List.length_drop, if_neg (by omega), if_neg (by omega), fieldAt_drop,
    List.drop_drop]

/-- The least size of a module leaves room for the header. -/
theorem decodeInOrder_eq (bytes : List UInt8) : decodeInOrder bytes = .ok (decode bytes) := by
  rw [decodeInOrder]
  by_cases short : bytes.length < leastSize
  · simp only [decode]
    rw [if_pos short, if_pos short]
  · have long : 12 ≤ (front bytes).length := by
      rw [leastSize] at short
      rw [length_front]
      omega
    have same {offset : Nat} (inside : offset + 4 ≤ 12) :
        fieldAt (front bytes) offset = fieldAt bytes offset :=
      fieldAt_take (by rw [length_front] at long; omega)
    have first := readField_drop (front bytes) 0 (by omega)
    have second := readField_drop (front bytes) 4 (by omega)
    have third := readField_drop (front bytes) 8 (by omega)
    rw [List.drop_zero, same (by omega)] at first
    rw [same (by omega)] at second third
    simp only [decode]
    rw [if_neg short, if_neg short, first]
    dsimp only [bind, Except.bind]
    rw [second]
    dsimp only
    rw [third]
    rfl

/-! ## The verdict on bytes -/

/-- What is made of any bytes. The checks come one after the other, and so do the units. -/
structure Classified (bytes : List UInt8) : Prop where
  /-- Fewer than sixteen bytes, or other ones in front than those of the magic, are no module. -/
  badMagic : decode bytes = .error .badMagic ↔ bytes.length < 16 ∨ bytes.take 4 ≠ mark
  /-- Else the next number has to be one. -/
  badVersion : ∀ version, decode bytes = .error (.badVersion version) ↔
    16 ≤ bytes.length ∧ bytes.take 4 = mark ∧ fieldAt bytes 4 = version ∧ version ≠ 1
  /-- Else the last four bytes have to be the checksum of all others. -/
  badChecksum : decode bytes = .error .badChecksum ↔
    16 ≤ bytes.length ∧ bytes.take 4 = mark ∧ fieldAt bytes 4 = 1 ∧
      bytes.drop (bytes.length - 4) ≠ field (Checksum.crc32 (front bytes)).toNat
  /-- Else the first unit that does not fit is named, with how it does not. -/
  unit : ∀ k shortage, decode bytes = .error (unitError k shortage) ↔
    Sealed bytes ∧ k ≤ fieldAt bytes 8 ∧ (∀ j < k, Fits (front bytes) j) ∧
      Lacks (front bytes) k shortage
  /-- Else the bytes are a module. -/
  accepted : (∃ b, decode bytes = .ok b) ↔
    Sealed bytes ∧ ∀ k ≤ fieldAt bytes 8, Fits (front bytes) k
  /-- Its units are those at their places. -/
  units : ∀ b, decode bytes = .ok b → b.main = unitAt (front bytes) 0 ∧
    b.procedures.size = fieldAt bytes 8 ∧
    ∀ id < fieldAt bytes 8, b.procedures[id]? = some (unitAt (front bytes) (id + 1))
  /-- The header can be read whenever it is looked at. -/
  header : decodeInOrder bytes = .ok (decode bytes)
  /-- There are no other errors. -/
  noOther : ∀ reason, decode bytes ≠ .error (.unreadable reason)

/-- An error that names a unit is none of the others. -/
theorem unitError_ne (k : Nat) (shortage : Shortage) : unitError k shortage ≠ .badMagic ∧
    (∀ version, unitError k shortage ≠ .badVersion version) ∧ unitError k shortage ≠ .badChecksum ∧
    ∀ reason, unitError k shortage ≠ .unreadable reason := by
  cases k <;> simp [unitError]

/-- The error names both the unit and what it lacks. -/
theorem unitError_inj {j k : Nat} {s t : Shortage} :
    unitError j s = unitError k t ↔ j = k ∧ s = t := by
  cases j <;> cases k <;> simp [unitError]

/-- No two units are the first that does not fit. -/
theorem first_lacks_unique {j k : Nat} {s t : Shortage} (before : ∀ i < j, Fits bytes i)
    (lacks : Lacks bytes j s) (before' : ∀ i < k, Fits bytes i) (lacks' : Lacks bytes k t) :
    j = k ∧ s = t := by
  rcases Nat.lt_trichotomy j k with less | rfl | more
  · exact absurd (before' j less) lacks.not_fits
  · exact ⟨rfl, lacks.unique lacks'⟩
  · exact absurd (before k more) lacks'.not_fits

/-- What does not pass the checks is classified by the one that it does not pass. -/
theorem classified_of_not_sealed (refused : ¬ Sealed bytes) : Classified bytes := by
  have header := decodeInOrder_eq bytes
  by_cases unmarked : bytes.length < 16 ∨ bytes.take 4 ≠ mark
  · have verdict := decode_of_unmarked unmarked
    constructor <;> grind [unitError_ne]
  · obtain ⟨long, marked⟩ : 16 ≤ bytes.length ∧ bytes.take 4 = mark := by
      rwa [not_or, Nat.not_lt, not_not] at unmarked
    have verdict := decode_of_marked long marked
    by_cases version : fieldAt bytes 4 = 1
    · have wrong : bytes.drop (bytes.length - 4) ≠ field (Checksum.crc32 (front bytes)).toNat :=
        fun checksum => refused ⟨long, marked, version, checksum⟩
      rw [if_neg (not_not.2 version), if_pos wrong] at verdict
      constructor <;> grind [unitError_ne]
    · rw [if_pos version] at verdict
      constructor <;> grind [unitError_ne]

/-- **What is made of any bytes** is said by the first check that they do not pass, or by the first
unit that does not fit, and if there is neither they are a module. -/
theorem classified (bytes : List UInt8) : Classified bytes := by
  by_cases sealed : Sealed bytes
  case neg => exact classified_of_not_sealed sealed
  have header := decodeInOrder_eq bytes
  obtain ⟨long, marked, version, checksum⟩ := id sealed
  rcases decode_cases sealed with ⟨fits, verdict⟩ | ⟨k, few, before, shortage, lacks, verdict⟩
  · constructor
    case unit =>
      intro k shortage
      rw [verdict]
      constructor
      · rintro ⟨⟩
      · rintro ⟨-, few, -, lacks⟩
        exact absurd (fits k few) lacks.not_fits
    case units =>
      intro b h
      rw [verdict] at h
      cases h
      refine ⟨rfl, by simp, fun id few => ?_⟩
      simp [few, Nat.add_comm]
    all_goals grind
  · constructor
    case unit =>
      intro j other
      rw [verdict, Except.error.injEq, unitError_inj]
      constructor
      · rintro ⟨rfl, rfl⟩
        exact ⟨sealed, few, before, lacks⟩
      · rintro ⟨-, -, before', lacks'⟩
        exact first_lacks_unique before lacks before' lacks'
    all_goals grind [Lacks.not_fits, unitError_ne]

/-- A count that no module has room for: what is named is the first unit for which no byte is
left. -/
example : decode (signed (field magic ++ field version ++ field 0xFFFFFFFF ++ chunk #[20])) =
    .error (.procedureUnit 0 .nothingLeft) := by
  decide +kernel

/-! ## Fronts of modules -/

variable {b c : Bytecode}

/-- The bytes of one program are not the front of those of another, whatever stands behind them. -/
theorem body_append_inj {x y : List UInt8} (hb : b.Storable) (hc : c.Storable)
    (same : body b ++ x = body c ++ y) : b = c ∧ x = y :=
  signed_body_inj hb hc (congrArg signed same)

/-- The third field of an encoded module is the number of its procedures. -/
theorem fieldAt_encode_count (storable : b.Storable) :
    fieldAt (encode b) 8 = b.procedures.size := by
  rw [encode_eq_signed, signed, body, List.append_assoc, List.append_assoc, List.append_assoc]
  exact fieldAt_append storable.count (field magic ++ field version) _

/-- What a front of a module holds of the header is the module's. -/
theorem fieldAt_of_front {rest : List UInt8} {offset : Nat} (whole : encode b = bytes ++ rest)
    (inside : offset + 4 ≤ bytes.length) : fieldAt bytes offset = fieldAt (encode b) offset := by
  have here : fieldAt ((bytes ++ rest).take bytes.length) offset = fieldAt (bytes ++ rest) offset :=
    fieldAt_take inside
  rwa [List.take_left, ← whole] at here

/-- **A module that is cut is never read**, wherever it is cut. If what is left ends in its own
checksum and is not too short for a module, it is a unit that does not fit. -/
theorem decode_of_truncated {rest : List UInt8} (storable : b.Storable)
    (whole : encode b = bytes ++ rest) (cut : rest ≠ []) :
    (∃ e, decode bytes = .error e) ∧
      (16 ≤ bytes.length →
        bytes.drop (bytes.length - 4) = field (Checksum.crc32 (front bytes)).toNat →
        ∃ k ≤ b.procedures.size, ∃ shortage, decode bytes = .error (unitError k shortage)) := by
  -- What could be read would be all of the program, and would have no room for its checksum.
  have refused (c : Bytecode) : decode bytes ≠ .ok c := by
    intro read
    obtain ⟨hc, extra, rfl⟩ := decode_eq_ok_iff.1 read
    rw [encode_eq_signed, signed, signed, List.append_assoc, List.append_assoc] at whole
    obtain ⟨rfl, behind⟩ := body_append_inj storable hc whole
    have lengths := congrArg List.length behind
    simp only [List.length_append, length_field] at lengths
    exact cut (List.eq_nil_of_length_eq_zero (by omega))
  constructor
  · cases verdict : decode bytes with
    | error e => exact ⟨e, rfl⟩
    | ok c => exact absurd verdict (refused c)
  · intro long checksum
    have marked : fieldAt bytes 0 = magic :=
      (fieldAt_of_front whole (by omega)).trans (fieldAt_encode_magic b)
    have version : fieldAt bytes 4 = 1 :=
      (fieldAt_of_front whole (by omega)).trans (fieldAt_encode_version b)
    have count : fieldAt bytes 8 = b.procedures.size :=
      (fieldAt_of_front whole (by omega)).trans (fieldAt_encode_count storable)
    have sealed : Sealed bytes :=
      ⟨long, (fieldAt_eq_magic_iff (by omega)).1 marked, version, checksum⟩
    rcases decode_cases sealed with ⟨-, read⟩ | ⟨k, few, -, shortage, -, verdict⟩
    · exact absurd read (refused _)
    · exact ⟨k, count ▸ few, shortage, verdict⟩

/-- A program without procedures, the code of which is the checksum of the header and of its own
length: cut behind its code, its module still ends in a checksum of all before it. -/
theorem decode_of_truncated_at_checksum :
    encode ⟨#[206, 0, 86, 211], #[]⟩ =
      signed (field magic ++ field version ++ field 0 ++ field 4) ++ [28, 223, 68, 33] ∧
    (∃ e, decode (signed (field magic ++ field version ++ field 0 ++ field 4)) = .error e) ∧
    ∃ shortage, decode (signed (field magic ++ field version ++ field 0 ++ field 4)) =
      .error (.mainUnit shortage) := by
  have whole : encode ⟨#[206, 0, 86, 211], #[]⟩ =
      signed (field magic ++ field version ++ field 0 ++ field 4) ++ [28, 223, 68, 33] := by
    decide +kernel
  obtain ⟨refused, named⟩ :=
    decode_of_truncated ⟨⟨by decide, by decide⟩, by decide⟩ whole (by decide)
  obtain ⟨k, few, shortage, verdict⟩ := named (by decide) (by decide +kernel)
  obtain rfl : k = 0 := Nat.le_zero.1 few
  exact ⟨whole, refused, shortage, verdict⟩

end TapeLang.ModuleFile
