/-
# Quoted text

A text between double quotes, as messages show a value that was refused. Quotes and backslashes are
escaped, and printable characters stand as they are. Of the rest, some controls have short escapes,
and any other character is given by its number: two digits for ASCII, else four or eight.
-/
import TapeLang.Text.Printable

namespace TapeLang.Quoted

/-- The hexadecimal digits of a number, at least `width` of them. -/
def hex (width n : Nat) : List Char :=
  let digits := Nat.toDigits 16 n
  List.replicate (width - digits.length) '0' ++ digits

/-- How a character is shown between quotes. -/
def escape (c : Char) : List Char :=
  match c with
  | '"' => ['\\', '"']
  | '\\' => ['\\', '\\']
  | '\n' => ['\\', 'n']
  | '\r' => ['\\', 'r']
  | '\t' => ['\\', 't']
  | '\x07' => ['\\', 'a']
  | '\x08' => ['\\', 'b']
  | '\x0b' => ['\\', 'v']
  | '\x0c' => ['\\', 'f']
  | _ =>
    let n := c.toNat
    if Printable.isPrintable c then [c]
    else if n < 0x20 ∨ n = 0x7F then '\\' :: 'x' :: hex 2 n
    else if n < 0x10000 then '\\' :: 'u' :: hex 4 n
    else '\\' :: 'U' :: hex 8 n

/-- A text between quotes. -/
def quote (s : String) : String :=
  String.ofList ('"' :: s.toList.flatMap escape ++ ['"'])

end TapeLang.Quoted
