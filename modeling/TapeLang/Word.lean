/-
# Words

Unsigned numbers as a fixed number of bytes, most significant first (operands of instructions) or
least significant first (fields of the module format). A number that does not fit is cut down to its
low bytes. Offsets and counts are signed words of 64 bits, in which sums wrap around.
-/

namespace TapeLang.Word

/-- The low `width` bytes of a number, least significant first. -/
def littleEndian : (width : Nat) → Nat → List UInt8
  | 0, _ => []
  | width + 1, n => n.toUInt8 :: littleEndian width (n / 256)

/-- The low `width` bytes of a number, most significant first. -/
def bigEndian (width n : Nat) : List UInt8 :=
  (littleEndian width n).reverse

/-- The number written by bytes, most significant first. -/
def ofBigEndian (bytes : List UInt8) : Nat :=
  bytes.foldl (fun n b => n * 256 + b.toNat) 0

/-- The number written by bytes, least significant first. -/
def ofLittleEndian (bytes : List UInt8) : Nat :=
  bytes.foldr (fun b n => b.toNat + 256 * n) 0

/-- An integer as an unsigned number of `width` bytes. -/
def ofInt (width : Nat) (n : Int) : Nat :=
  (n % (Nat.pow 256 width : Nat)).toNat

/-- A number as a signed word of 64 bits. -/
def wrap (n : Int) : Int :=
  (Int64.ofInt n).toInt

theorem wrap_eq_bmod (n : Int) : wrap n = Int.bmod n Int64.size :=
  Int64.toInt_ofInt

/-- A number in the range of the words is itself. -/
theorem wrap_eq_self {n : Int} (low : -0x8000000000000000 ≤ n) (high : n < 0x8000000000000000) :
    wrap n = n := by
  rw [wrap_eq_bmod]
  apply Int.bmod_eq_of_le <;> simp only [Int64.size] <;> omega

@[simp] theorem length_littleEndian (width n : Nat) : (littleEndian width n).length = width := by
  induction width generalizing n with
  | zero => rfl
  | succ w ih => simp [littleEndian, ih]

@[simp] theorem length_bigEndian (width n : Nat) : (bigEndian width n).length = width := by
  simp [bigEndian]

@[simp] theorem ofLittleEndian_cons (b : UInt8) (bytes : List UInt8) :
    ofLittleEndian (b :: bytes) = b.toNat + 256 * ofLittleEndian bytes := rfl

/-- Reading back what was written gives the number cut down to the width. -/
theorem ofLittleEndian_littleEndian (width n : Nat) :
    ofLittleEndian (littleEndian width n) = n % Nat.pow 256 width := by
  simp only [Nat.pow_eq]
  induction width generalizing n with
  | zero => simp [littleEndian, ofLittleEndian, Nat.mod_one]
  | succ w ih =>
    rw [littleEndian, ofLittleEndian_cons, ih, Nat.pow_succ, Nat.mul_comm (256 ^ w) 256,
      Nat.mod_mul]
    simp

end TapeLang.Word
