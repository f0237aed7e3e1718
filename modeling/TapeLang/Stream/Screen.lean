/-
# Screens and terminals

A screen passes on what is written and remembers the line that is not ended yet: its tail. A
terminal is a screen whose input is typed. Before a line is typed, the tail becomes the prompt of
the line editor, and is forgotten when the editor returns. The typed lines reach the reader one at a
time, each with a newline at its end; a line that does not fit the reader's room is delivered in
pieces.
-/
import TapeLang.Stream.Device

namespace TapeLang

variable {δ : Type} [Device δ]

/-! ## Screens -/

/-- The byte that ends a line. -/
def newline : UInt8 := 10

/-- The bytes after the last newline, which are all bytes if there is none. -/
def lastLine (bytes : List UInt8) : List UInt8 :=
  (bytes.reverse.takeWhile fun b => b != newline).reverse

@[simp] theorem lastLine_nil : lastLine [] = [] := rfl

/-- A device, and the line written to it that is not ended yet. -/
structure Screen (δ : Type) where
  inner : δ
  tail : List UInt8 := []

namespace Screen

/-- Writes bytes and remembers the line they leave open, whether or not they are accepted: a newline
among them ends the line that was open before, and else they go on with it. -/
def write (bytes : List UInt8) (s : Screen δ) : Nat × Option String × Screen δ :=
  let (count, failure, inner) := Device.write bytes s.inner
  let tail := if newline ∈ bytes then lastLine bytes else s.tail ++ bytes
  (count, failure, { inner := inner, tail := tail })

/-- Delivers the input of the device behind the screen. -/
def read (room : Nat) (s : Screen δ) : List UInt8 × Option Failure × Screen δ :=
  let (bytes, failure, inner) := Device.read room s.inner
  (bytes, failure, { s with inner := inner })

instance : Device (Screen δ) where
  read := read
  write := write

end Screen

/-! ## Terminals -/

/-- The lines that are typed, given the bytes of the line begun, last one first. A line ends at a
newline or a carriage return, or where the typing ends; an interrupt drops the line and ends the
input, and so does the end-of-transmission key on an empty line. This only reproduces what the line
editor makes of keys, for runs with typed input: a terminal may have any lines. -/
def typedLines (line : List UInt8) : List UInt8 → List (List UInt8)
  | [] => if line.isEmpty then [] else [line.reverse]
  | b :: rest =>
    if b = newline ∨ b = 13 then line.reverse :: typedLines [] rest
    else if b = 3 then []
    else if b = 4 then if line.isEmpty then [] else typedLines line rest
    else typedLines (b :: line) rest

/-- A screen with typed input. -/
structure Terminal (δ : Type) where
  screen : Screen δ
  /-- The lines the editor is still to return; after them the input ends. -/
  lines : List (List UInt8) := []
  /-- What is left of the line returned last. -/
  pending : List UInt8 := []
  /-- Whether the editor has met the end of the input. -/
  closed : Bool := false
  /-- The prompt of each time the editor was asked for a line. -/
  prompts : Array (List UInt8) := #[]
  /-- The tail at each time bytes were asked for. -/
  tails : Array (List UInt8) := #[]

namespace Terminal

/-- The tail is the prompt of the editor, and is forgotten after it. -/
abbrev prompt (t : Terminal δ) : Terminal δ :=
  { t with
    prompts := t.prompts.push t.screen.tail
    screen := { t.screen with tail := [] } }

/-- Asks the editor for a line. -/
def ask (t : Terminal δ) : Terminal δ :=
  match t.lines with
  | [] => { t.prompt with closed := true }
  | line :: rest => { t.prompt with lines := rest, pending := line ++ [newline] }

/-- Delivers what is left of a line, after asking for a new one if nothing is. -/
def read (room : Nat) (t : Terminal δ) : List UInt8 × Option Failure × Terminal δ :=
  let t := { t with tails := t.tails.push t.screen.tail }
  let t := if t.pending.isEmpty ∧ ¬t.closed then t.ask else t
  if t.pending.isEmpty then ([], some .endOfInput, t)
  else (t.pending.take room, none, { t with pending := t.pending.drop room })

/-- Delivers bytes while the editor fails: if it is asked, there is no line and no end of the input,
and it will be asked again. -/
def readFailing (reason : String) (room : Nat) (t : Terminal δ) :
    List UInt8 × Option Failure × Terminal δ :=
  if t.pending.isEmpty ∧ ¬t.closed then
    ([], some (.other reason), { t.prompt with tails := t.tails.push t.screen.tail })
  else t.read room

/-- Writes to the screen. -/
def write (bytes : List UInt8) (t : Terminal δ) : Nat × Option String × Terminal δ :=
  let (count, failure, screen) := t.screen.write bytes
  (count, failure, { t with screen := screen })

instance : Device (Terminal δ) where
  read := read
  write := write

end Terminal

end TapeLang
