/-
# Coloured text

Terminal colours. A coloured text is wrapped in the escape sequence that selects the colour and the
one that ends it; without colour it is left as it is.
-/
import TapeLang.Text.Decimal

namespace TapeLang

/-- The colours and weights in use. -/
inductive Colour where
  | faint
  | red
  | green
  | yellow
  | blue
  | magenta
  | cyan
deriving DecidableEq, Repr

namespace Colour

/-- The number that selects a colour on a terminal. -/
def code : Colour → Nat
  | faint => 2
  | red => 31
  | green => 32
  | yellow => 33
  | blue => 34
  | magenta => 35
  | cyan => 36

/-- The escape sequence that selects the attribute of the given number. -/
def select (number : Nat) : String :=
  "\x1b[" ++ number.repr ++ "m"

/-- The escape sequence that ends all attributes. -/
def reset : String :=
  select 0

/-- A text in a colour, or as it is when colour is off. -/
def paint (colour : Colour) (on : Bool) (text : String) : String :=
  if on then select colour.code ++ text ++ reset else text

@[simp] theorem paint_off (colour : Colour) (text : String) : colour.paint false text = text := rfl

end Colour

end TapeLang
