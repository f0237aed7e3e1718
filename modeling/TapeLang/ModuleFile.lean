/-
# The module format

A compiled program as bytes. All numbers are 32-bit words, least significant byte first:

magic, version, number of procedures length of the main unit, the main unit length of a procedure's
unit, the unit (once for each procedure) checksum of everything before it

Reading checks, in this order, the magic, the version, the checksum and then the units. Bytes
between the last unit and the checksum are let pass.
-/
import TapeLang.Bytecode
import TapeLang.Checksum
import TapeLang.Stream.Device
import TapeLang.Word

namespace TapeLang.ModuleFile

/-- The bytes that begin a module: `PBRN`. -/
def magic : Nat := 0x4E524250

/-- The version of the format. -/
def version : Nat := 1

/-- A number as a field of the format. -/
def field (n : Nat) : List UInt8 :=
  Word.littleEndian 4 n

/-! ## Writing -/

/-- A unit after its length. -/
def chunk (code : Code) : List UInt8 :=
  field code.size ++ code.toList

/-- Everything before the checksum. -/
def body (b : Bytecode) : List UInt8 :=
  field magic ++ field version ++ field b.procedures.size ++ chunk b.main ++
    b.procedures.toList.flatMap chunk

/-- The module of a program. -/
def encode (b : Bytecode) : List UInt8 :=
  let body := body b
  body ++ field (Checksum.crc32 body).toNat

/-- Writes the module of a program to a device, all of it at once; what the device refuses without a
reason is no failure. -/
def write {δ : Type} [Device δ] (b : Bytecode) (device : δ) : Option String × δ :=
  let (_, failure, device) := Device.write (encode b) device
  (failure.map fun reason => "failed to write module: " ++ reason, device)

/-! ## Reading -/

/-- How a unit can fail to fit into the bytes left for it. -/
inductive Shortage where
  /-- No byte is left where its length should begin. -/
  | nothingLeft
  /-- Its length is cut, or says more bytes than are left. -/
  | cutShort
deriving DecidableEq, Repr

/-- How a shortage is reported. -/
def Shortage.text : Shortage → String
  | nothingLeft => "EOF"
  | cutShort => "unexpected EOF"

/-- Why bytes are no module. -/
inductive Error where
  | badMagic
  | badVersion (version : Nat)
  | badChecksum
  /-- The main unit does not fit. -/
  | mainUnit (shortage : Shortage)
  /-- The unit of a procedure does not fit. -/
  | procedureUnit (id : Nat) (shortage : Shortage)
  /-- The bytes could not be had. -/
  | unreadable (reason : String)
deriving DecidableEq, Repr

/-- How an error is reported. -/
def Error.message : Error → String
  | badMagic => "not a pbrain module"
  | badVersion version => "version " ++ version.repr ++ ": unsupported module version"
  | badChecksum => "module checksum mismatch"
  | mainUnit shortage => "failed to read main chunk: " ++ shortage.text
  | procedureUnit id shortage => "failed to read procedure " ++ id.repr ++ ": " ++ shortage.text
  | unreadable reason => "failed to read module: " ++ reason

/-- The number at an offset, four bytes long. -/
def fieldAt (bytes : List UInt8) (offset : Nat) : Nat :=
  Word.ofLittleEndian ((bytes.drop offset).take 4)

/-- Reads a unit, and what follows it, from the front of bytes of the given number. -/
def readChunk (available : Nat) (bytes : List UInt8) : Except Shortage (Code × List UInt8) :=
  if available = 0 then .error .nothingLeft
  else if available < 4 then .error .cutShort
  else
    let length := fieldAt bytes 0
    let rest := bytes.drop 4
    if available - 4 < length then .error .cutShort
    else .ok ((rest.take length).toArray, rest.drop length)

/-- Reads the units of `count` procedures, after those that are read already. -/
def readProcedures (done : Array Code) :
    (count available : Nat) → List UInt8 → Except Error (Array Code)
  | 0, _, _ => .ok done
  | count + 1, available, bytes =>
    match readChunk available bytes with
    | .error shortage => .error (.procedureUnit done.size shortage)
    | .ok (code, rest) => readProcedures (done.push code) count (available - (4 + code.size)) rest

/-- Reads the units of a module: the main unit, then those of `count` procedures. -/
def readUnits (count : Nat) (bytes : List UInt8) : Except Error Bytecode :=
  match readChunk bytes.length bytes with
  | .error shortage => .error (.mainUnit shortage)
  | .ok (main, rest) =>
    match readProcedures #[] count rest.length rest with
    | .error e => .error e
    | .ok procedures => .ok { main := main, procedures := procedures }

/-- The fewest bytes a module has. -/
def leastSize : Nat := 16

/-- The program of a module. -/
def decode (bytes : List UInt8) : Except Error Bytecode :=
  if bytes.length < leastSize then .error .badMagic
  else
    let body := bytes.take (bytes.length - 4)
    if fieldAt bytes 0 ≠ magic then .error .badMagic
    else if fieldAt bytes 4 ≠ version then .error (.badVersion (fieldAt bytes 4))
    else if (Checksum.crc32 body).toNat ≠ fieldAt bytes (bytes.length - 4) then .error .badChecksum
    else readUnits (fieldAt bytes 8) (body.drop 12)

/-- The program of a module whose bytes may not be had. -/
def decodeRead : Except String (List UInt8) → Except Error Bytecode
  | .ok bytes => decode bytes
  | .error reason => .error (.unreadable reason)

end TapeLang.ModuleFile
