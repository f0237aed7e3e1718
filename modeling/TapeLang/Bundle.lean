/-
# Bundles

A standalone executable is a runner with a module behind it. A trailer closes it: the length of the
module as a 64-bit number, least significant byte first, and eight bytes that mark it as a bundle.
The runner finds its module through the trailer, so what the runner's own bytes are does not matter.
-/
import TapeLang.ModuleFile

namespace TapeLang.Bundle

/-- The bytes that close a bundle. -/
def mark : List UInt8 :=
  [0x70, 0x62, 0x72, 0x61, 0x69, 0x6E, 0x78, 0x00]

/-- The size of a trailer. -/
def trailerSize : Nat := 16

/-- The trailer of a module of the given length. -/
def trailer (length : Nat) : List UInt8 :=
  Word.littleEndian 8 length ++ mark

/-- A runner with the module of a program behind it. -/
def make (runner : List UInt8) (b : Bytecode) : List UInt8 :=
  let payload := ModuleFile.encode b
  runner ++ payload ++ trailer payload.length

/-- Why an executable's module can not be had. -/
inductive Error where
  /-- The trailer could not be read. -/
  | unreadableTrailer (reason : String)
  /-- The length in the trailer is not that of a module inside the executable. -/
  | corruptTrailer
  /-- What the trailer points to is no module. -/
  | badModule (error : ModuleFile.Error)
deriving DecidableEq, Repr

/-- How an error is reported. -/
def Error.message : Error → String
  | unreadableTrailer reason => "failed to read trailer: " ++ reason
  | corruptTrailer => "corrupt bundle trailer"
  | badModule error => error.message

/-- The length of the module at the end of an executable, if its last bytes are a trailer. The
length is a signed number, and a module has at least one byte. -/
def payloadLength (executable : List UInt8) : Except Error (Option Nat) :=
  if executable.length < trailerSize then .ok none
  else
    let last := executable.drop (executable.length - trailerSize)
    if last.drop 8 ≠ mark then .ok none
    else
      let length := Word.wrap (Word.ofLittleEndian (last.take 8))
      if length ≤ 0 ∨ executable.length - trailerSize < length then .error .corruptTrailer
      else .ok (some length.toNat)

/-- The program of the module at the end of an executable, if there is one. -/
def extract (executable : List UInt8) : Except Error (Option Bytecode) :=
  match payloadLength executable with
  | .error e => .error e
  | .ok none => .ok none
  | .ok (some length) =>
    let start := executable.length - trailerSize - length
    match ModuleFile.decode ((executable.drop start).take length) with
    | .error e => .error (.badModule e)
    | .ok b => .ok (some b)

/-- The same for the first `size` bytes of some data: when there are fewer, the trailer lies beyond
their end. -/
def extractSized (data : List UInt8) (size : Int) : Except Error (Option Bytecode) :=
  if size < trailerSize then .ok none
  else if data.length < size then .error (.unreadableTrailer "EOF")
  else extract (data.take size.toNat)

/-- The runner of an executable: its bytes without a module at their end. -/
def runner (executable : List UInt8) : Except Error (List UInt8) :=
  match payloadLength executable with
  | .error e => .error e
  | .ok none => .ok executable
  | .ok (some length) => .ok (executable.take (executable.length - trailerSize - length))

end TapeLang.Bundle
