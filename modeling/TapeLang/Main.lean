/-
# The program

Connects the command to the surroundings it is started in: its own executable, the file it reads,
the standard streams, and the file it writes.
-/
import TapeLang.Command

namespace TapeLang

/-- All bytes of a stream that come before its end. -/
partial def readAll (stream : IO.FS.Stream) (done : Array UInt8) : IO (Array UInt8) := do
  let bytes ← stream.read 4096
  if bytes.isEmpty then return done else readAll stream (done ++ bytes.data)

/-- Why the file system refuses a path. -/
def causeOf : IO.Error → FileError.Cause
  | .inappropriateType _ code _ => if code = 20 then .notDirectory else .isDirectory
  | .invalidArgument _ code _ => if code = 36 then .tooLong else .malformed
  | .permissionDenied .. => .denied
  | _ => .missing

/-- What stands at a path of the file system. -/
def findEntry (path : String) : IO (Except FileError Volume.Entry) := do
  try
    let data ← (← IO.FS.Handle.mk path .read).readBinToEnd
    return .ok (.file .plain data.data.toList)
  catch error =>
    match causeOf error with
    | .isDirectory => return .ok .directory
    | cause => return .error (.unopened path cause)

/-- Writes a result to the file system. A file that is there keeps its mode. -/
def writeResult (result : Command.Result) : IO (Except FileError Unit) := do
  let known ← try
      let _ ← IO.FS.Handle.mk result.path .read
      pure true
    catch _ => pure false
  try
    IO.FS.writeBinFile result.path ⟨result.data.toArray⟩
    if result.mode = .executable && !known then
      let all : IO.AccessRight := { read := true, write := false, execution := true }
      IO.setAccessRights result.path
        { user := { all with write := true }, group := all, other := all }
    return .ok ()
  catch error => return .error (.unopened result.path (causeOf error))

end TapeLang

open TapeLang in
/-- Performs the command of the arguments. -/
def main (arguments : List String) : IO UInt32 := do
  let executable := (← IO.FS.readBinFile (← IO.appPath)).data.toList
  let carries := match Bundle.extract executable with
    | .ok none => false
    | _ => true
  let command := Command.ofArguments arguments
  let entry ← match command.input? with
    | some path => if carries then pure (.error (.unopened path .missing)) else findEntry path
    | none => pure (.error (.unopened "" .missing))
  let runs := match command with
    | .run .. => true
    | _ => carries
  let input ← if runs then readAll (← IO.getStdin) #[] else pure #[]
  let performance :=
    Command.start 0x4000000000000000 executable (fun _ => entry) arguments input.toList
  let written ← match performance.rest with
    | .write result => writeResult result
    | .exit _ => pure (.ok ())
  let (transcript, exit) := performance.finish written
  let out ← IO.getStdout
  out.write ⟨transcript.out.toArray⟩
  out.flush
  (← IO.getStderr).putStr transcript.err
  match exit with
  | .status code => return code.toUInt32
  | _ => return 2
