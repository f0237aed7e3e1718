/-
# The source queue

A source is read through a queue of bytes, each with the offset it was found at, so that a report
about a byte can point back to where it stands. The queue counts the bytes taken from it and knows
the offset of the one taken last. The number of call operators is counted once, when the queue is
made from a source; bytes put in later do not change it.
-/
import TapeLang.Token

namespace TapeLang

/-- A byte of the source and the offset at which it stands. -/
structure Located where
  byte : UInt8
  offset : Int
deriving DecidableEq, Repr

namespace Located

/-- What a byte stands for. -/
def kind (x : Located) : Token.Kind :=
  .ofByte x.byte

/-- The bytes of a source with their offsets. -/
def ofBytes (bytes : List UInt8) : List Located :=
  bytes.zipIdx.map fun x => { byte := x.1, offset := x.2 }

end Located

/-- A queue of bytes: those still to come, how many were taken, the offset of the last one taken
(zero before the first), and the number of call operators it was made with. -/
structure Source where
  rest : List Located
  taken : Nat := 0
  position : Int := 0
  calls : Nat := 0

namespace Source

/-- The number of call operators in a byte string. -/
def callCount (bytes : List UInt8) : Nat :=
  bytes.countP fun b => Token.Kind.ofByte b == .call

/-- The queue of all bytes of a source. -/
def ofBytes (bytes : List UInt8) : Source :=
  { rest := Located.ofBytes bytes, calls := callCount bytes }

/-- The number of bytes still to come. -/
def length (s : Source) : Nat :=
  s.rest.length

/-- Whether nothing is left. -/
def isEmpty (s : Source) : Bool :=
  s.rest.isEmpty

/-- The byte that comes next; an empty queue has none. -/
def peek? (s : Source) : Option UInt8 :=
  s.rest.head?.map Located.byte

/-- Takes the bytes in front of `rest`, which must be an end of the queue. -/
def advanceTo (s : Source) (rest : List Located) : Source :=
  let count := s.rest.length - rest.length
  match count with
  | 0 => s
  | n + 1 =>
    { s with
      rest := rest
      taken := s.taken + count
      position := (s.rest[n]?.map Located.offset).getD s.position }

/-- Takes one byte; an empty queue has none. -/
def next? (s : Source) : Option (UInt8 × Source) :=
  match s.rest with
  | [] => none
  | x :: rest => some (x.byte, { s with rest := rest, taken := s.taken + 1, position := x.offset })

/-- Counts a run of an operator of which the first has been taken, and takes the others. -/
def group (s : Source) (operator : UInt8) : Nat × Source :=
  let rest := s.rest.dropWhile fun x => x.byte == operator
  (s.rest.length - rest.length + 1, s.advanceTo rest)

/-- Puts a byte at the end of the queue. -/
def enqueue (s : Source) (x : Located) : Source :=
  { s with rest := s.rest ++ [x] }

/-- The position of the last byte taken, as it is printed. -/
def positionText (position : Int) : String :=
  "[" ++ Decimal.text position ++ "]"

@[simp] theorem length_enqueue (s : Source) (x : Located) :
    (s.enqueue x).length = s.length + 1 := by
  simp [length, enqueue]

end Source

end TapeLang
