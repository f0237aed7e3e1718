/-
# Characters over bytes

The host that reads and writes characters on a byte device. Both directions are buffered. What is
written is collected and sent on when the buffer is full, when a character is read, so that the
output written before an input is complete when the input is asked for, and when a run ends. Once
sending has failed it fails for good. What the device delivers is collected until it holds a whole
character or shows that it never will.
-/
import TapeLang.Machine.Host
import TapeLang.Stream.Device
import TapeLang.Text.Utf8

namespace TapeLang

/-- A byte device with buffers in both directions. -/
structure Buffered (δ : Type) where
  device : δ
  /-- Bytes delivered by the device and not yet read as characters. -/
  input : List UInt8 := []
  /-- A failure that came after these bytes. -/
  inputFailure : Option Failure := none
  /-- Bytes written and not yet sent on. -/
  output : Array UInt8 := #[]
  /-- Why sending has failed, if it has. -/
  outputFailure : Option String := none

namespace Buffered

variable {δ : Type} [Device δ]

/-- The size of each buffer in bytes. -/
def capacity : Nat := 4096

/-- The most bytes a character takes. -/
def longest : Nat := 4

/-! ## Output -/

/-- Sends on what was written. A device that accepts only a part without giving a reason has made a
short write; what it did not accept stays in the buffer. -/
def flush (s : Buffered δ) : Except String Unit × Buffered δ :=
  match s.outputFailure with
  | some reason => (.error reason, s)
  | none =>
    if s.output.isEmpty then (.ok (), s)
    else
      let (count, refusal, device) := Device.write s.output.toList s.device
      let failure := if refusal.isNone ∧ count < s.output.size then some "short write" else refusal
      match failure with
      | none => (.ok (), { s with device := device, output := #[] })
      | some reason =>
        (.error reason,
          { s with
            device := device
            output := s.output.extract count
            outputFailure := some reason })

/-- The free bytes of the output buffer that a character needs: one for a character of one byte, and
room for the longest for any other. -/
def needed (bytes : List UInt8) : Nat :=
  if bytes.length = 1 then 1 else longest

/-- Writes a character, after sending on what was written if there is no room for it. -/
def write (value : Int32) (s : Buffered δ) : Except String Unit × Buffered δ :=
  let bytes := Utf8.encode value.toInt
  let append (s : Buffered δ) : Except String Unit × Buffered δ :=
    (.ok (), { s with output := s.output.appendList bytes })
  match s.outputFailure with
  | some reason => (.error reason, s)
  | none =>
    if s.output.size + needed bytes ≤ capacity then append s
    else
      match s.flush with
      | (.error reason, s) => (.error reason, s)
      | (.ok (), s) => append s

/-! ## Input -/

/-- How many times in a row a device may deliver nothing without a failure. -/
def patience : Nat := 100

/-- Asks the device for bytes until it delivers some or fails, no more than `attempts` times. -/
def fill : (attempts : Nat) → Buffered δ → Buffered δ
  | 0, s => { s with inputFailure := some (.other "multiple Read calls return no data or error") }
  | attempts + 1, s =>
    let (bytes, failure, device) := Device.read (capacity - s.input.length) s.device
    let s := { s with device := device, input := s.input ++ bytes, inputFailure := failure }
    if bytes.isEmpty ∧ failure.isNone then fill attempts s else s

/-- Fills the input buffer until it begins with a whole character, or with bytes that never become
one, or the device fails. Each time brings a byte or a failure, and a character has at most four
bytes, so `rounds = 4` is enough. -/
def await : (rounds : Nat) → Buffered δ → Buffered δ
  | 0, s => s
  | rounds + 1, s =>
    if Utf8.front s.input = .incomplete ∧ s.inputFailure.isNone then await rounds (fill patience s)
    else s

/-- Reads a character. A failure of the device is reported when all bytes before it have been read;
the end of the input is no failure but the answer `-1`. -/
def readChar (s : Buffered δ) : Except String Int32 × Buffered δ :=
  let s := await longest s
  if s.input.isEmpty then
    let s' := { s with inputFailure := none }
    match s.inputFailure with
    | none => (.ok 0, s')
    | some .endOfInput => (.ok (-1), s')
    | some (.other reason) => (.error reason, s')
  else
    let (value, size) := Utf8.takeFront s.input
    (.ok (Int32.ofNat value), { s with input := s.input.drop size })

/-- Sends on what was written, and then reads a character. -/
def read (s : Buffered δ) : Except String Int32 × Buffered δ :=
  match s.flush with
  | (.error reason, s) => (.error reason, s)
  | (.ok (), s) => s.readChar

instance : Host (Buffered δ) where
  read := read
  write := write
  flush := flush

end Buffered

end TapeLang
