/-
# UTF-8

Characters are Unicode scalar values; on a byte stream each is one to four bytes. Writing never
fails: a value that is no scalar value is written as the replacement character. Reading looks at the
front of the bytes that have arrived so far, and tells a complete character from bytes that can
never become one and from bytes that may still become one.
-/

namespace TapeLang.Utf8

/-! ## Writing -/

/-- The character that stands for whatever is not a Unicode scalar value. -/
def replacement : Nat := 0xFFFD

/-- Unicode scalar values: the code points up to `0x10FFFF` without the surrogates. -/
def isScalar (n : Nat) : Bool :=
  n < 0xD800 || (0xDFFF < n && n ≤ 0x10FFFF)

/-- The bytes of a scalar value, lead byte first; six bits go into each continuation byte. -/
def encodeScalar (n : Nat) : List UInt8 :=
  if n < 0x80 then
    [n.toUInt8]
  else if n < 0x800 then
    [(0xC0 + n / 0x40).toUInt8, (0x80 + n % 0x40).toUInt8]
  else if n < 0x10000 then
    [(0xE0 + n / 0x1000).toUInt8, (0x80 + n / 0x40 % 0x40).toUInt8, (0x80 + n % 0x40).toUInt8]
  else
    [(0xF0 + n / 0x40000).toUInt8, (0x80 + n / 0x1000 % 0x40).toUInt8,
      (0x80 + n / 0x40 % 0x40).toUInt8, (0x80 + n % 0x40).toUInt8]

/-- The scalar value that is written for an integer: itself if it is one, else the replacement. -/
def scalarOf (v : Int) : Nat :=
  if 0 ≤ v ∧ isScalar v.toNat then v.toNat else replacement

/-- The bytes written for an integer. -/
def encode (v : Int) : List UInt8 :=
  encodeScalar (scalarOf v)

/-- The replacement is itself a scalar value, so whatever is written is one. -/
theorem isScalar_scalarOf (v : Int) : isScalar (scalarOf v) = true := by
  unfold scalarOf
  split
  · next h => exact h.2
  · decide

/-- A character takes between one and four bytes. -/
theorem length_encodeScalar (n : Nat) :
    1 ≤ (encodeScalar n).length ∧ (encodeScalar n).length ≤ 4 := by
  unfold encodeScalar
  split
  · simp
  · split
    · simp
    · split <;> simp

/-- The bytes of a text. -/
def ofString (s : String) : List UInt8 :=
  s.toUTF8.data.toList

/-! ## Reading -/

/-- What the front of a byte string amounts to. -/
inductive Front where
  /-- Every byte so far fits, but the character is not complete. -/
  | incomplete
  /-- The first byte can not begin a character. -/
  | malformed
  /-- A complete character and the number of its bytes. -/
  | scalar (value : Nat) (size : Nat)
deriving DecidableEq, Repr

/-- For a lead byte: how many bytes follow it, its share of the value, and the range its second byte
must lie in. The narrowed ranges shut out overlong forms, surrogates and values above `0x10FFFF`. -/
def lead? (b : UInt8) : Option (Nat × Nat × UInt8 × UInt8) :=
  if b < 0xC2 then none
  else if b < 0xE0 then some (1, b.toNat - 0xC0, 0x80, 0xBF)
  else if b == 0xE0 then some (2, 0, 0xA0, 0xBF)
  else if b == 0xED then some (2, 0xD, 0x80, 0x9F)
  else if b < 0xF0 then some (2, b.toNat - 0xE0, 0x80, 0xBF)
  else if b == 0xF0 then some (3, 0, 0x90, 0xBF)
  else if b < 0xF4 then some (3, b.toNat - 0xF0, 0x80, 0xBF)
  else if b == 0xF4 then some (3, 4, 0x80, 0x8F)
  else none

/-- Reads `missing` further continuation bytes onto `value`, of which `size` bytes are read. -/
def continuation : (missing value size : Nat) → List UInt8 → Front
  | 0, value, size, _ => .scalar value size
  | _ + 1, _, _, [] => .incomplete
  | missing + 1, value, size, b :: rest =>
    if 0x80 ≤ b ∧ b ≤ 0xBF then
      continuation missing (value * 0x40 + (b.toNat - 0x80)) (size + 1) rest
    else .malformed

/-- The character at the front of a byte string, if it is there yet. -/
def front : List UInt8 → Front
  | [] => .incomplete
  | b :: rest =>
    if b < 0x80 then .scalar b.toNat 1
    else match lead? b, rest with
      | none, _ => .malformed
      | some _, [] => .incomplete
      | some (more, value, low, high), c :: tail =>
        if low ≤ c ∧ c ≤ high then
          continuation (more - 1) (value * 0x40 + (c.toNat - 0x80)) 2 tail
        else .malformed

/-- The character taken from the front of bytes to which nothing will be added, and the number of
bytes it takes: a byte that begins no complete character is the replacement character on its own. -/
def takeFront (bytes : List UInt8) : Nat × Nat :=
  match front bytes with
  | .scalar value size => (value, size)
  | _ => (replacement, 1)

end TapeLang.Utf8
