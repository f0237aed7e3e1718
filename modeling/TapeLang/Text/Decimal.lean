/-
# Decimal text

Integers as messages and listings print them: a plain signed decimal, and a decimal filled up with
zeros to a field width in which the sign counts.
-/

namespace TapeLang.Decimal

/-- The decimal digits of an integer, after a minus sign if it is negative. -/
def text : Int → String
  | .ofNat n => n.repr
  | .negSucc n => "-" ++ (n + 1).repr

/-- An integer in a field of at least `width` characters: zeros stand between the sign, which counts
as one character of the field, and the digits. -/
def padded (width : Nat) (n : Int) : String :=
  let sign := if n < 0 then "-" else ""
  let digits := n.natAbs.repr
  sign ++ String.ofList (List.replicate (width - sign.length - digits.length) '0') ++ digits

end TapeLang.Decimal
