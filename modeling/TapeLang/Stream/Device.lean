/-
# Byte devices

The two ends of a byte stream: a device delivers bytes, as many as it likes up to the room it is
given, and accepts bytes, not always all that are offered. A `Pipe` is a device with a fixed input
that is delivered at a given pace, and with room for a limited number of bytes; it keeps what it
accepted.
-/

namespace TapeLang

/-- Why a device delivers no more bytes. -/
inductive Failure where
  | endOfInput
  | other (reason : String)
deriving DecidableEq, Repr

/-- How a failure is reported. -/
def Failure.text : Failure → String
  | endOfInput => "EOF"
  | other reason => reason

/-- A device on a state `δ`. Reading delivers at most as many bytes as there is room for, and
possibly a failure after them; writing answers how many of the bytes, from the first on, were
accepted, and possibly the reason why the others were not. -/
class Device (δ : Type) where
  read : (room : Nat) → δ → List UInt8 × Option Failure × δ
  write : List UInt8 → δ → Nat × Option String × δ

/-- How much of its input a pipe delivers at once. -/
inductive Pipe.Pace where
  /-- As much as there is room for. -/
  | whole
  /-- At most so many bytes. -/
  | atMost (bytes : Nat)
  /-- Nothing, and no failure either. -/
  | stalled
deriving DecidableEq, Repr

/-- A device with a fixed input and limited room for output. -/
structure Pipe where
  /-- The input that is still to be delivered. -/
  input : List UInt8 := []
  pace : Pipe.Pace := .whole
  /-- What reading gives after the input. -/
  ending : Failure := .endOfInput
  /-- How many more bytes are accepted, if that is limited. -/
  space : Option Nat := none
  /-- Whether bytes that do not fit are refused without a reason. -/
  silent : Bool := false
  /-- What each write brought in, in order. -/
  writes : Array (List UInt8) := #[]

namespace Pipe

/-- Delivers the next bytes of the input, or what follows the input. -/
def read (room : Nat) (p : Pipe) : List UInt8 × Option Failure × Pipe :=
  let deliver (count : Nat) : List UInt8 × Option Failure × Pipe :=
    if p.input.isEmpty then ([], some p.ending, p)
    else (p.input.take count, none, { p with input := p.input.drop count })
  match p.pace with
  | .whole => deliver room
  | .atMost bytes => deliver (min room bytes)
  | .stalled => ([], none, p)

/-- Accepts the bytes that fit. -/
def write (bytes : List UInt8) (p : Pipe) : Nat × Option String × Pipe :=
  match p.space with
  | none => (bytes.length, none, { p with writes := p.writes.push bytes })
  | some space =>
    if bytes.length ≤ space then
      (bytes.length, none,
        { p with space := some (space - bytes.length), writes := p.writes.push bytes })
    else
      (space, if p.silent then none else some "disk full",
        { p with space := some 0, writes := p.writes.push (bytes.take space) })

instance : Device Pipe where
  read := read
  write := write

/-- All bytes accepted so far. -/
def accepted (p : Pipe) : List UInt8 :=
  p.writes.toList.flatten

end Pipe

end TapeLang
