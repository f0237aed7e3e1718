/-
# Reading characters from bytes

Bytes are read from left to right. Where a character is encoded it is read, and any byte at which
none is encoded is read as `U+FFFD` on its own: `Utf8.Decodes`. All bytes can be read in just one
way (`Utf8.Decodes.total`, `Utf8.Decodes.unique`), and what was written is read back
(`Utf8.Decodes.of_characters`).

What stands at the front of bytes is decided by `Utf8.front`, which has seen only the bytes that
have arrived. A scalar value has one spelling, of which each byte carries a few bits
(`Utf8.Spelling`), and the front of bytes is a scalar value just if they begin with its spelling.
Once a front is settled, nothing that arrives later changes it (`Utf8.front_append`); and it is
settled when four bytes are there (`Utf8.length_of_incomplete`).
-/
import TapeLang.Proofs.Output

namespace TapeLang

namespace Utf8

/-! ## Lead bytes -/

/-- The lead bytes of two bytes. -/
theorem lead?_two : ∀ b : UInt8, 0xC2 ≤ b.toNat → b.toNat < 0xE0 →
    lead? b = some (1, b.toNat - 0xC0, 0x80, 0xBF) := by
  intro b low high
  simp only [lead?, UInt8.lt_iff_toNat_lt, UInt8.reduceToNat, if_neg (Nat.not_lt.2 low),
    if_pos high]

/-- The lead bytes of three bytes. The ranges of the second byte shut out overlong forms and
surrogates. -/
theorem lead?_three : ∀ b : UInt8, 0xE0 ≤ b.toNat → b.toNat < 0xF0 →
    lead? b = some (2, b.toNat - 0xE0, if b.toNat = 0xE0 then 0xA0 else 0x80,
      if b.toNat = 0xED then 0x9F else 0xBF) := by
  intro b low high
  simp only [lead?, UInt8.lt_iff_toNat_lt, UInt8.reduceToNat, beq_iff_eq, ← UInt8.toNat_inj]
  grind

/-- The lead bytes of four bytes. The ranges of the second byte shut out overlong forms and what is
above `0x10FFFF`. -/
theorem lead?_four : ∀ b : UInt8, 0xF0 ≤ b.toNat → b.toNat < 0xF5 →
    lead? b = some (3, b.toNat - 0xF0, if b.toNat = 0xF0 then 0x90 else 0x80,
      if b.toNat = 0xF4 then 0x8F else 0xBF) := by
  intro b low high
  simp only [lead?, UInt8.lt_iff_toNat_lt, UInt8.reduceToNat, beq_iff_eq, ← UInt8.toNat_inj]
  grind

theorem lead?_none : ∀ b : UInt8, b.toNat < 0xC2 ∨ 0xF5 ≤ b.toNat → lead? b = none := by
  intro b outside
  simp only [lead?, UInt8.lt_iff_toNat_lt, UInt8.reduceToNat, beq_iff_eq, ← UInt8.toNat_inj]
  grind

/-- A byte below `0x80` is no lead byte, and a lead byte announces three bytes at most. -/
theorem lead?_bound : ∀ b : UInt8, ∀ lead, lead? b = some lead → ¬ b < 0x80 ∧ lead.1 ≤ 3 := by
  intro b lead found
  simp only [lead?, UInt8.lt_iff_toNat_lt, UInt8.reduceToNat, beq_iff_eq,
    ← UInt8.toNat_inj] at found ⊢
  grind

section Front

variable {b c : UInt8} {tail : List UInt8} {missing value : Nat} {low high : UInt8}

theorem front_ascii (small : b.toNat < 0x80) : front (b :: tail) = .scalar b.toNat 1 := by
  have below : b < 0x80 := UInt8.lt_iff_toNat_lt.2 small
  simp only [front, if_pos below]

theorem front_of_lead_none (large : 0x80 ≤ b.toNat) (lead : lead? b = none) :
    front (b :: tail) = .malformed := by
  have above : ¬ b < 0x80 := fun h => Nat.not_lt.2 large (UInt8.lt_iff_toNat_lt.1 h)
  simp only [front, if_neg above, lead]

theorem front_singleton (lead : lead? b = some (missing, value, low, high)) :
    front [b] = .incomplete := by
  simp only [front, if_neg (lead?_bound b _ lead).1, lead]

theorem front_of_lead (lead : lead? b = some (missing, value, low, high)) :
    front (b :: c :: tail) = if low.toNat ≤ c.toNat ∧ c.toNat ≤ high.toNat then
      continuation (missing - 1) (value * 0x40 + (c.toNat - 0x80)) 2 tail else .malformed := by
  simp only [front, if_neg (lead?_bound b _ lead).1, lead, UInt8.le_iff_toNat_le]

theorem continuation_succ (missing value size : Nat) :
    continuation (missing + 1) value size (b :: tail) = if 0x80 ≤ b.toNat ∧ b.toNat ≤ 0xBF then
      continuation missing (value * 0x40 + (b.toNat - 0x80)) (size + 1) tail else .malformed := by
  simp only [continuation, UInt8.le_iff_toNat_le, UInt8.reduceToNat]

end Front

/-- The bytes of a scalar value, with the bits that each of them carries. -/
inductive Spelling (n : Nat) : List UInt8 → Prop
  | one {b : UInt8} : b.toNat = n → n < 0x80 → Spelling n [b]
  | two {b c : UInt8} {x y : Nat} : b.toNat = 0xC0 + x → c.toNat = 0x80 + y → y < 0x40 →
      0x80 ≤ n → n < 0x800 → n = x * 0x40 + y → Spelling n [b, c]
  | three {b c d : UInt8} {x y z : Nat} :
      b.toNat = 0xE0 + x → c.toNat = 0x80 + y → d.toNat = 0x80 + z →
      y < 0x40 → z < 0x40 → 0x800 ≤ n → n < 0x10000 → n < 0xD800 ∨ 0xDFFF < n →
      n = (x * 0x40 + y) * 0x40 + z → Spelling n [b, c, d]
  | four {b c d e : UInt8} {x y z w : Nat} :
      b.toNat = 0xF0 + x → c.toNat = 0x80 + y → d.toNat = 0x80 + z →
      e.toNat = 0x80 + w → y < 0x40 → z < 0x40 → w < 0x40 → 0x10000 ≤ n → n ≤ 0x10FFFF →
      n = ((x * 0x40 + y) * 0x40 + z) * 0x40 + w → Spelling n [b, c, d, e]

/-- Scalar values are written by their spellings. -/
theorem spelling_encodeScalar {n : Nat} (scalar : isScalar n = true) :
    Spelling n (encodeScalar n) := by
  have bound : n < 0xD800 ∨ 0xDFFF < n ∧ n ≤ 0x10FFFF := by simpa [isScalar] using scalar
  have byte (k : Nat) (h : k < 256) : k.toUInt8.toNat = k := by
    rw [Nat.toUInt8_eq, UInt8.toNat_ofNat', Nat.mod_eq_of_lt h]
  unfold encodeScalar
  by_cases one : n < 0x80
  · rw [if_pos one]
    exact .one (byte n (by omega)) one
  by_cases two : n < 0x800
  · rw [if_neg one, if_pos two]
    exact .two (byte _ (by omega)) (byte _ (by omega)) (by omega) (by omega) two (by omega)
  by_cases three : n < 0x10000
  · rw [if_neg one, if_neg two, if_pos three]
    exact .three (byte _ (by omega)) (byte _ (by omega)) (byte _ (by omega)) (by omega) (by omega)
      (by omega)
      three (by omega) (by omega)
  · rw [if_neg one, if_neg two, if_neg three]
    exact .four (byte _ (by omega)) (byte _ (by omega)) (byte _ (by omega)) (byte _ (by omega))
      (by omega)
      (by omega) (by omega) (by omega) (by omega) (by omega)

namespace Spelling

variable {n m : Nat} {bytes : List UInt8}

/-- The front of bytes that begin with the spelling of a scalar value. -/
theorem front_append (h : Spelling n bytes) (rest : List UInt8) :
    front (bytes ++ rest) = .scalar n bytes.length := by
  cases h with
  | one hb small =>
    subst hb
    exact front_ascii small
  | @two b c x y hb hc hy least most value =>
    have lead := lead?_two b (by omega) (by omega)
    show front (b :: c :: rest) = _
    rw [front_of_lead lead, hb, hc, if_pos (by simp only [UInt8.reduceToNat]; omega), continuation,
      value]
    simp
  | @three b c d x y z hb hc hd hy hz least most outside value =>
    have lead := lead?_three b (by omega) (by omega)
    show front (b :: c :: d :: rest) = _
    rw [front_of_lead lead, hb, hc, if_pos, continuation_succ, if_pos (by omega), continuation, hd,
      value]
    · simp
    · split <;> split <;> simp only [UInt8.reduceToNat] <;> omega
  | @four b c d e x y z w hb hc hd he hy hz hw least most value =>
    have lead := lead?_four b (by omega) (by omega)
    show front (b :: c :: d :: e :: rest) = _
    rw [front_of_lead lead, hb, hc, if_pos, continuation_succ, if_pos (by omega), continuation_succ,
      if_pos (by omega), continuation, hd, he, value]
    · simp
    · split <;> split <;> simp only [UInt8.reduceToNat] <;> omega

theorem isScalar (h : Spelling n bytes) : isScalar n = true := by
  rw [isScalar_iff, Nat.isValidChar]
  cases h <;> omega

/-- A scalar value has one spelling. -/
theorem unique {other : List UInt8} (h : Spelling n bytes) (g : Spelling n other) :
    bytes = other := by
  cases h <;> cases g <;>
    simp only [List.cons.injEq, ← UInt8.toNat_inj, reduceCtorEq, and_true, and_false] <;>
    omega

end Spelling

/-- One more byte of a character that has been read. -/
theorem exists_of_continuation {missing value size n k : Nat} {bytes : List UInt8}
    (h : continuation (missing + 1) value size bytes = .scalar n k) :
    ∃ b tail y, bytes = b :: tail ∧ b.toNat = 0x80 + y ∧ y < 0x40 ∧
      continuation missing (value * 0x40 + y) (size + 1) tail = .scalar n k := by
  cases bytes with
  | nil => cases h
  | cons b tail =>
    rw [continuation_succ] at h
    split at h
    · next range => exact ⟨b, tail, b.toNat - 0x80, rfl, by omega, by omega, h⟩
    · cases h

/-- The second byte of a character that has been read. -/
theorem exists_of_front {missing value n k : Nat} {low high b : UInt8} {bytes : List UInt8}
    (lead : lead? b = some (missing + 1, value, low, high)) (h : front (b :: bytes) = .scalar n k) :
    ∃ c tail, bytes = c :: tail ∧ low.toNat ≤ c.toNat ∧ c.toNat ≤ high.toNat ∧
      continuation missing (value * 0x40 + (c.toNat - 0x80)) 2 tail = .scalar n k := by
  cases bytes with
  | nil =>
    rw [front_singleton lead] at h
    cases h
  | cons c tail =>
    rw [front_of_lead lead] at h
    split at h
    · next range => exact ⟨c, tail, rfl, range.1, range.2, h⟩
    · cases h

/-- A front that is a scalar value is the spelling of this value. -/
theorem exists_spelling_of_front {n k : Nat} {bytes : List UInt8} (h : front bytes = .scalar n k) :
    ∃ spelled rest, bytes = spelled ++ rest ∧ Spelling n spelled ∧ k = spelled.length := by
  cases bytes with
  | nil => cases h
  | cons b rest =>
    by_cases small : b.toNat < 0x80
    · rw [front_ascii small] at h
      cases h
      exact ⟨[b], rest, rfl, .one rfl small, rfl⟩
    have large : 0x80 ≤ b.toNat := Nat.le_of_not_lt small
    by_cases outside : b.toNat < 0xC2 ∨ 0xF5 ≤ b.toNat
    · rw [front_of_lead_none large (lead?_none b outside)] at h
      cases h
    -- The number of bytes is what the lead byte says.
    by_cases two : b.toNat < 0xE0
    · obtain ⟨c, tail, rfl, lower, upper, last⟩ := exists_of_front (lead?_two b (by omega) two) h
      simp only [UInt8.reduceToNat] at lower upper
      obtain ⟨value, size⟩ := Front.scalar.inj last
      exact ⟨[b, c], tail, rfl,
        .two (x := b.toNat - 0xC0) (y := c.toNat - 0x80) (by omega) (by omega) (by omega)
        (by omega) (by omega) value.symm, size.symm⟩
    by_cases three : b.toNat < 0xF0
    · obtain ⟨c, tail, rfl, lower, upper, next⟩ :=
        exists_of_front (lead?_three b (by omega) three) h
      obtain ⟨d, tail, z, rfl, hd, hz, last⟩ := exists_of_continuation next
      simp only [apply_ite UInt8.toNat, UInt8.reduceToNat] at lower upper
      have least : 0x80 ≤ c.toNat ∧ (b.toNat = 0xE0 → 0xA0 ≤ c.toNat) := by split at lower <;> omega
      have most : c.toNat ≤ 0xBF ∧ (b.toNat = 0xED → c.toNat ≤ 0x9F) := by split at upper <;> omega
      obtain ⟨value, size⟩ := Front.scalar.inj last
      exact ⟨[b, c, d], tail, rfl,
        .three (x := b.toNat - 0xE0) (y := c.toNat - 0x80) (by omega) (by omega) hd
        (by omega) hz (by omega) (by omega) (by omega) value.symm, size.symm⟩
    · obtain ⟨c, tail, rfl, lower, upper, next⟩ :=
        exists_of_front (lead?_four b (by omega) (by omega)) h
      obtain ⟨d, tail, z, rfl, hd, hz, next⟩ := exists_of_continuation next
      obtain ⟨e, tail, w, rfl, he, hw, last⟩ := exists_of_continuation next
      simp only [apply_ite UInt8.toNat, UInt8.reduceToNat] at lower upper
      have least : 0x80 ≤ c.toNat ∧ (b.toNat = 0xF0 → 0x90 ≤ c.toNat) := by split at lower <;> omega
      have most : c.toNat ≤ 0xBF ∧ (b.toNat = 0xF4 → c.toNat ≤ 0x8F) := by split at upper <;> omega
      obtain ⟨value, size⟩ := Front.scalar.inj last
      exact ⟨[b, c, d, e], tail, rfl,
        .four (x := b.toNat - 0xF0) (y := c.toNat - 0x80) (by omega) (by omega) hd he
        (by omega) hz hw (by omega) (by omega) value.symm, size.symm⟩

/-! ## Fronts of bytes that are still arriving -/

theorem length_of_continuation {missing value size : Nat} {bytes : List UInt8}
    (h : continuation missing value size bytes = .incomplete) : bytes.length < missing := by
  induction missing generalizing value size bytes with
  | zero => cases h
  | succ missing ih =>
    cases bytes with
    | nil => exact Nat.succ_pos missing
    | cons b tail =>
      rw [continuation_succ] at h
      split at h
      · exact Nat.succ_lt_succ (ih h)
      · cases h

theorem continuation_append {missing value size : Nat} {bytes : List UInt8}
    (settled : continuation missing value size bytes ≠ .incomplete) (more : List UInt8) :
    continuation missing value size (bytes ++ more) = continuation missing value size bytes := by
  induction missing generalizing value size bytes with
  | zero => rfl
  | succ missing ih =>
    cases bytes with
    | nil => exact absurd rfl settled
    | cons b tail =>
      rw [continuation_succ] at settled
      rw [List.cons_append, continuation_succ, continuation_succ]
      split
      · next range =>
        rw [if_pos range] at settled
        exact ih settled
      · rfl

/-- What is not complete yet is short. -/
theorem length_of_incomplete {bytes : List UInt8} (h : front bytes = .incomplete) :
    bytes.length ≤ 3 := by
  rcases bytes with _ | ⟨b, _ | ⟨c, tail⟩⟩
  · exact Nat.zero_le 3
  · exact Nat.le_of_ble_eq_true rfl
  by_cases small : b.toNat < 0x80
  · rw [front_ascii small] at h
    cases h
  have large : 0x80 ≤ b.toNat := Nat.le_of_not_lt small
  cases lead : lead? b with
  | none =>
    rw [front_of_lead_none large lead] at h
    cases h
  | some found =>
    obtain ⟨missing, value, low, high⟩ := found
    have few : missing ≤ 3 := (lead?_bound b _ lead).2
    rw [front_of_lead lead] at h
    split at h
    · have short := length_of_continuation h
      simp only [List.length_cons]
      omega
    · cases h

/-- A front that is settled stays so whatever arrives after it. -/
theorem front_append {bytes : List UInt8} (settled : front bytes ≠ .incomplete)
    (more : List UInt8) : front (bytes ++ more) = front bytes := by
  rcases bytes with _ | ⟨b, rest⟩
  · exact absurd rfl settled
  by_cases small : b.toNat < 0x80
  · rw [List.cons_append, front_ascii small, front_ascii small]
  have large : 0x80 ≤ b.toNat := Nat.le_of_not_lt small
  cases lead : lead? b with
  | none => rw [List.cons_append, front_of_lead_none large lead, front_of_lead_none large lead]
  | some found =>
    obtain ⟨missing, value, low, high⟩ := found
    cases rest with
    | nil => exact absurd (front_singleton lead) settled
    | cons c tail =>
      rw [front_of_lead lead] at settled
      rw [List.cons_append, List.cons_append, front_of_lead lead, front_of_lead lead]
      split
      · next range =>
        rw [if_pos range] at settled
        exact continuation_append settled more
      · rfl

/-! ## Characters in front -/

/-- A character in front of a byte string is what its front shows. -/
theorem front_character (c : Char) (rest : List UInt8) :
    front (String.utf8EncodeChar c ++ rest) = .scalar c.toNat (String.utf8EncodeChar c).length := by
  have scalar : isScalar c.toNat = true := (isScalar_iff _).2 c.valid
  rw [← encodeScalar_toNat]
  exact (spelling_encodeScalar scalar).front_append rest

/-- What a front shows is a character. -/
theorem exists_character_of_front {n k : Nat} {bytes : List UInt8} (h : front bytes = .scalar n k) :
    ∃ c, String.utf8EncodeChar c <+: bytes := by
  obtain ⟨spelled, rest, rfl, spelling, -⟩ := exists_spelling_of_front h
  have valid : n.isValidChar := (isScalar_iff n).1 spelling.isScalar
  refine ⟨Char.ofNat n, rest, ?_⟩
  have number : (Char.ofNat n).toNat = n := by rw [Char.toNat_ofNat, if_pos valid]
  rw [← encodeScalar_toNat, number, spelling.unique (spelling_encodeScalar spelling.isScalar)]

theorem takeFront_character (c : Char) (rest : List UInt8) :
    takeFront (String.utf8EncodeChar c ++ rest) = (c.toNat, (String.utf8EncodeChar c).length) := by
  simp only [takeFront, front_character]

theorem takeFront_of_no_character {bytes : List UInt8}
    (none : ∀ c, ¬ String.utf8EncodeChar c <+: bytes) : takeFront bytes = (replacement, 1) := by
  unfold takeFront
  split
  · next value size shown =>
    obtain ⟨c, h⟩ := exists_character_of_front shown
    exact absurd h (none c)
  · rfl

/-- No more is taken from the front than is there. -/
theorem takeFront_le {bytes : List UInt8} (some_byte : bytes ≠ []) :
    (takeFront bytes).2 ≤ bytes.length := by
  unfold takeFront
  split
  · next value size shown =>
    obtain ⟨spelled, rest, rfl, -, rfl⟩ := exists_spelling_of_front shown
    show spelled.length ≤ (spelled ++ rest).length
    rw [List.length_append]
    omega
  · exact List.length_pos_iff.2 some_byte

/-! ## Decoding -/

/-- Bytes are read as characters from left to right: where a character is encoded it is read, and
any other byte is read as `U+FFFD` on its own. -/
inductive Decodes : List UInt8 → List Char → Prop
  | nil : Decodes [] []
  | character {rest : List UInt8} {chars : List Char} (c : Char) :
      Decodes rest chars → Decodes (String.utf8EncodeChar c ++ rest) (c :: chars)
  | other {b : UInt8} {rest : List UInt8} {chars : List Char} :
      (∀ c, ¬ String.utf8EncodeChar c <+: b :: rest) → Decodes rest chars →
      Decodes (b :: rest) (Char.ofNat 0xFFFD :: chars)

namespace Decodes

variable {bytes : List UInt8} {chars other : List Char} {c : Char}

/-- What is read first is what is taken from the front. -/
theorem head (h : Decodes bytes (c :: chars)) :
    bytes ≠ [] ∧ (takeFront bytes).1 = c.toNat ∧
      Decodes (bytes.drop (takeFront bytes).2) chars := by
  cases h with
  | character c rest =>
    rw [takeFront_character, List.drop_left]
    refine ⟨?_, rfl, rest⟩
    have some_byte := (length_utf8EncodeChar c).1
    intro none
    rw [(List.append_eq_nil_iff.1 none).1] at some_byte
    exact absurd some_byte (by decide)
  | other none rest =>
    rw [takeFront_of_no_character none]
    exact ⟨List.cons_ne_nil _ _, rfl, rest⟩

/-- Bytes are read in one way only. -/
theorem unique (h : Decodes bytes chars) (g : Decodes bytes other) : chars = other := by
  induction chars generalizing bytes other with
  | nil =>
    cases h
    cases other with
    | nil => rfl
    | cons c other => exact absurd rfl g.head.1
  | cons c chars ih =>
    cases other with
    | nil =>
      cases g
      exact absurd rfl h.head.1
    | cons d other =>
      have same : c = d := Char.toNat_inj.1 (h.head.2.1.symm.trans g.head.2.1)
      rw [same, ih h.head.2.2 g.head.2.2]

/-- All bytes can be read. -/
theorem total (bytes : List UInt8) : ∃ chars, Decodes bytes chars := by
  induction count : bytes.length using Nat.strong_induction_on generalizing bytes with
  | _ n ih =>
    cases bytes with
    | nil => exact ⟨[], .nil⟩
    | cons b rest =>
      by_cases begins : ∃ c, String.utf8EncodeChar c <+: b :: rest
      · obtain ⟨c, after, same⟩ := begins
        have size := congrArg List.length same
        have some_byte := (length_utf8EncodeChar c).1
        rw [List.length_append] at size
        obtain ⟨chars, read⟩ := ih after.length (by omega) after rfl
        rw [← same]
        exact ⟨c :: chars, .character c read⟩
      · obtain ⟨chars, read⟩ := ih rest.length (by rw [← count]; exact Nat.lt_succ_self _) rest rfl
        exact ⟨_, .other (fun c h => begins ⟨c, h⟩) read⟩

/-- Characters that were written are read. -/
theorem of_characters (chars : List Char) :
    Decodes (chars.flatMap String.utf8EncodeChar) chars := by
  induction chars with
  | nil => exact .nil
  | cons c chars ih =>
    rw [List.flatMap_cons]
    exact .character c ih

end Decodes

end Utf8

end TapeLang
