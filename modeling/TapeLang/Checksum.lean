/-
# CRC-32

The cyclic redundancy check with the polynomial `0x04C11DB7`, bits taken from the least significant
one on, which makes its register shift to the right under the reversed polynomial. Register and
result are complemented.
-/

namespace TapeLang.Checksum

/-- The polynomial, least significant bit first. -/
def polynomial : UInt32 := 0xEDB88320

/-- Shifts one bit out of the register; a bit that is set brings the polynomial in. -/
def shift (register : UInt32) : UInt32 :=
  if register &&& 1 = 1 then (register >>> 1) ^^^ polynomial else register >>> 1

/-- Shifts a number of bits out of the register. -/
def shifts : (bits : Nat) → UInt32 → UInt32
  | 0, register => register
  | bits + 1, register => shifts bits (shift register)

/-- Takes a byte into the register. -/
def absorb (register : UInt32) (b : UInt8) : UInt32 :=
  shifts 8 (register ^^^ b.toUInt32)

/-- The checksum of a byte string. -/
def crc32 (bytes : List UInt8) : UInt32 :=
  bytes.foldl absorb 0xFFFFFFFF ^^^ 0xFFFFFFFF

end TapeLang.Checksum
