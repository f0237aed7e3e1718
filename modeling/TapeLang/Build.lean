/-
# From source to result

Building a source is reading its program and compiling it; interpreting it is building it and
running the bytecode on a new machine.
-/
import TapeLang.Bytecode.Compile
import TapeLang.Machine
import TapeLang.Program.Parser

namespace TapeLang

/-- Why a source can not be built. -/
inductive BuildError where
  | parse (error : ParseError)
  | compile (error : CompileError)
deriving Repr

/-- How the error is reported. -/
def BuildError.message : BuildError → String
  | parse error => error.message
  | compile error => error.message

/-- The bytecode of a source for an instruction set. -/
def buildFor (set : InstructionSet) (source : List UInt8) : Except BuildError Bytecode :=
  match Program.parse source with
  | .error e => .error (.parse e)
  | .ok program => (program.compileFor set).mapError .compile

/-- The bytecode of a source. -/
def build (source : List UInt8) : Except BuildError Bytecode :=
  buildFor .standard source

/-- Builds a source and runs it on a new machine, for no more than `limit` steps. -/
def interpret {σ : Type} [Host σ] (source : List UInt8) (limit : Nat) (host : σ) :
    Except BuildError (Machine.Ending σ) :=
  (build source).map fun code => ({} : Machine).run code limit host

end TapeLang
