/-
# Coloured sources

Two ways to show a source in colour. `highlight` colours it token by token and loses none of its
bytes. `display` shows it by classes of characters, where loop brackets are told apart by whether
they have a partner to their left. It only reproduces what a general source highlighter shows for
this language, so that runs of the command line print the same text; no theorem rests on it.
-/
import TapeLang.Text.Colour
import TapeLang.Text.Utf8
import TapeLang.Token

namespace TapeLang

/-! ## By tokens -/

/-- The colour of a kind of token. -/
def Token.Kind.colour : Token.Kind → Colour
  | increment | decrement => .cyan
  | forward | back => .blue
  | read | write => .yellow
  | loopOpen | loopClose => .magenta
  | procOpen | procClose | call => .green
  | comment => .faint

/-- Bytes in a colour, or as they are when colour is off. -/
def Colour.paintBytes (colour : Colour) (on : Bool) (bytes : List UInt8) : List UInt8 :=
  if on then Utf8.ofString (select colour.code) ++ bytes ++ Utf8.ofString reset else bytes

/-- The bytes of a source that a token covers. -/
def Token.slice (source : List UInt8) (t : Token) : List UInt8 :=
  (source.drop t.offset).take t.length

/-- A source with each of its tokens in the token's colour. -/
def highlight (on : Bool) (source : List UInt8) : List UInt8 :=
  (Token.tokenize source).flatMap fun t => t.kind.colour.paintBytes on (t.slice source)

/-- A line of characters with each of its tokens in the token's colour; what is no character is
shown as the replacement character. -/
def highlightLine (on : Bool) (line : List Int32) : List UInt8 :=
  highlight on (line.flatMap fun c => Utf8.encode c.toInt)

/-! ## By classes of characters -/

/-- The classes of characters that a display tells apart. They are those of the source highlighter
whose output a display reproduces. -/
inductive Display.Class where
  | transfer
  | amend
  | move
  | bracket
  | stray
  | other
deriving DecidableEq, Repr

namespace Display

/-- The attributes a class is shown with. -/
def Class.attributes : Class → List Nat
  | transfer => [1, 31]
  | amend => [1, 37]
  | move => [1, 37]
  | bracket => [1, 36]
  | stray => [35, 40]
  | other => [1, 30]

/-- The class of a byte when `depth` loop brackets are open, and how many are open after it. -/
def classify (depth : Nat) (b : UInt8) : Class × Nat :=
  match Token.Kind.ofByte b with
  | .read | .write => (.transfer, depth)
  | .increment | .decrement => (.amend, depth)
  | .forward | .back => (.move, depth)
  | .loopOpen => (.bracket, depth + 1)
  | .loopClose => if depth = 0 then (.stray, 0) else (.bracket, depth - 1)
  | _ => (.other, depth)

/-- The bytes of a source with their classes. -/
def classes (source : List UInt8) : List (Class × UInt8) :=
  let classed := source.foldl
    (fun (depth, out) b =>
      let (c, depth) := classify depth b
      (depth, (c, b) :: out))
    ((0, []) : Nat × List (Class × UInt8))
  classed.2.reverse

/-- Puts a byte in front of runs of one class each. -/
def join (x : Class × UInt8) (runs : List (Class × List UInt8)) : List (Class × List UInt8) :=
  match runs with
  | [] => [(x.1, [x.2])]
  | (c, bytes) :: rest =>
    if c = x.1 then (c, x.2 :: bytes) :: rest else (x.1, [x.2]) :: (c, bytes) :: rest

/-- The longest runs of one class. -/
def runs (source : List UInt8) : List (Class × List UInt8) :=
  (classes source).foldr join []

end Display

/-- A source with each run of one class in the attributes of that class. This reproduces what the
source highlighter shows, for runs of the command line. -/
def display (source : List UInt8) : List UInt8 :=
  (Display.runs source).flatMap fun (c, bytes) =>
    c.attributes.flatMap (fun n => Utf8.ofString (Colour.select n)) ++ bytes ++
      Utf8.ofString Colour.reset

end TapeLang
