/-
# Programs in files

Modules and executables on a volume: writing them, reading a module back, and finding the module
inside an executable.
-/
import TapeLang.Bundle
import TapeLang.Volume

namespace TapeLang

/-- Why a program can not be had from a file or put into one. -/
inductive StorageError where
  /-- The file of a module can not be opened. -/
  | moduleFile (error : FileError)
  /-- The file of an executable can not be opened. -/
  | executableFile (error : FileError)
  /-- The result can not be written to its path. -/
  | unwritten (path : String) (error : FileError)
  /-- The file is no module. -/
  | badModule (error : ModuleFile.Error)
  /-- The module inside an executable can not be had. -/
  | badBundle (error : Bundle.Error)
deriving Repr

/-- How the error is reported. -/
def StorageError.message : StorageError → String
  | moduleFile error => "failed to open module: " ++ error.message
  | executableFile error => "failed to open executable: " ++ error.message
  | unwritten path error => "failed to write " ++ path ++ ": " ++ error.message
  | badModule error => error.message
  | badBundle error => error.message

namespace Volume

/-- Writes a result to a path. -/
def writeResult (v : Volume) (path : String) (mode : Mode) (data : List UInt8) :
    Except StorageError Volume :=
  (v.write path mode data).mapError (.unwritten path)

/-- Writes an executable to a path. -/
def writeExecutable (v : Volume) (path : String) (data : List UInt8) : Except StorageError Volume :=
  v.writeResult path .executable data

/-- Writes the module of a program to a path. -/
def writeModule (v : Volume) (path : String) (b : Bytecode) : Except StorageError Volume :=
  v.writeResult path .plain (ModuleFile.encode b)

/-- The program of the module found at a path. -/
def moduleOf (path : String) : Except FileError Entry → Except StorageError Bytecode
  | .error e => .error (.moduleFile e)
  | .ok .directory => .error (.badModule (.unreadable (FileError.unreadable path).message))
  | .ok (.file _ data) => (ModuleFile.decode data).mapError .badModule
  | .ok .null => (ModuleFile.decode []).mapError .badModule

/-- The program of the module at a path. -/
def readModule (v : Volume) (path : String) : Except StorageError Bytecode :=
  moduleOf path (v.entryAt path)

/-- The program inside the executable at a path, if there is one. -/
def extractFile (v : Volume) (path : String) : Except StorageError (Option Bytecode) :=
  match v.entryAt path with
  | .error e => .error (.executableFile e)
  | .ok .directory => .error (.badBundle (.unreadableTrailer (FileError.unreadable path).message))
  | .ok (.file _ data) => (Bundle.extract data).mapError .badBundle
  | .ok .null => (Bundle.extract []).mapError .badBundle

end Volume

end TapeLang
