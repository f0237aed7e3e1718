/-
# The command line

What the command does with its arguments, as a function of what it reads: the file it is given, the
standard input and its own executable. A command either prints and exits, or ends by writing a file,
after which it says so. An executable that carries a module runs that module and looks at nothing
else.
-/
import TapeLang.Bytecode.Compile
import TapeLang.Command.Options
import TapeLang.Highlight
import TapeLang.Machine
import TapeLang.Path
import TapeLang.Program.Parser
import TapeLang.Storage
import TapeLang.Stream.Buffered
import TapeLang.Stream.Screen

namespace TapeLang

namespace Command

/-! ## What a command says and how it ends -/

/-- What was written to the standard output and to the standard error. -/
structure Transcript where
  out : List UInt8 := []
  err : String := ""

namespace Transcript

/-- Prints bytes. -/
def send (t : Transcript) (bytes : List UInt8) : Transcript :=
  { t with out := t.out ++ bytes }

/-- Prints a text. -/
def print (t : Transcript) (text : String) : Transcript :=
  t.send (Utf8.ofString text)

/-- Prints a line to the standard error. -/
def complain (t : Transcript) (line : String) : Transcript :=
  { t with err := t.err ++ line ++ "\n" }

end Transcript

/-- How a command ends. -/
inductive Exit where
  | status (code : UInt8)
  /-- The machine broke down. -/
  | crashed
  /-- A program did not end within the steps allowed. -/
  | unfinished
deriving DecidableEq, Repr

/-- A file to be written, and what is said when it has been. -/
structure Result where
  path : String
  mode : Volume.Mode
  data : List UInt8
  notice : String

/-- What a command still does after what it has said. -/
inductive Rest where
  | exit (exit : Exit)
  | write (result : Result)

/-- What a command does: what it says, and what follows. -/
structure Performance where
  transcript : Transcript
  rest : Rest

/-- Says why the command fails. -/
def fail (t : Transcript) (message : String) : Performance :=
  { transcript := t.complain message, rest := .exit (.status 1) }

/-! ## Running programs -/

/-- The exit status of a result: its low eight bits. -/
def statusOf (result : Int32) : UInt8 :=
  (result.toInt % 256).toNat.toUInt8

/-- Runs a program on the standard input; its result is the exit status. -/
def execute (limit : Nat) (code : Bytecode) (input : List UInt8) (t : Transcript) : Performance :=
  let streams : Buffered (Screen Pipe) := { device := { inner := { input := input } } }
  match ({} : Machine).run code limit streams with
  | .done report _ streams =>
    let t := t.send streams.device.inner.accepted
    match report.fault with
    | some fault => fail t fault.message
    | none => { transcript := t, rest := .exit (.status (statusOf report.result)) }
  | .broken _ streams =>
    { transcript := t.send streams.device.inner.accepted, rest := .exit .crashed }
  | .unfinished => { transcript := t, rest := .exit .unfinished }

/-! ## Building programs -/

/-- Reports a stage of the compilation, if that is wanted. -/
def stage (o : Options) (t : Transcript) (line : String) : Transcript :=
  if o.verbose then t.complain line else t

/-- Prints something, if that is wanted. -/
def show? (wanted : Bool) (t : Transcript) (bytes : List UInt8) : Transcript :=
  if wanted then t.send bytes else t

/-- The operators of a source: each token with a space after it. -/
def tokenLine (source : List UInt8) : String :=
  let operators := (Token.tokenize source).filter fun t => t.kind != .comment
  operators.foldl (fun out t => out ++ t.text ++ " ") "" ++ "\n"

/-- Builds a source, and shows what is wanted of each stage on the way. -/
def build (o : Options) (path : String) (source : List UInt8) (t : Transcript) :
    Transcript × Except String Bytecode :=
  let t := show? o.showSource t (display source ++ [newline])
  let t := show? o.showTokens t (Utf8.ofString (tokenLine source))
  match Program.parse source with
  | .error e => (t, .error e.message)
  | .ok program =>
    let t := stage o t
      ("parsed " ++ path ++ ": " ++ program.main.length.repr ++ " top-level nodes, " ++
        program.procedures.length.repr ++ " procedures, " ++ Decimal.text program.calls ++
        " call sites")
    let t := show? o.showTree t (Utf8.ofString (program.text ++ "\n"))
    match program.compile with
    | .error e => (t, .error e.message)
    | .ok code =>
      let t := stage o t
        ("emitted " ++ code.main.size.repr ++ " bytes of main code and " ++
          code.procedures.size.repr ++ " procedure units")
      (show? o.showBytecode t (Utf8.ofString (code.list .standard false)), .ok code)

/-- The result of compiling a program: a module, or an executable made from the runner. -/
def result (o : Options) (path : String) (runner : List UInt8) (code : Bytecode) : Result :=
  if o.emitModule then
    let output := if o.output.isEmpty then Path.moduleName path else o.output
    { path := output
      mode := .plain
      data := ModuleFile.encode code
      notice := "Module saved as '" ++ output ++ "'.\n" }
  else
    let output := if o.output.isEmpty then Path.executableName path else o.output
    { path := output
      mode := .executable
      data := Bundle.make runner code
      notice := "Executable saved as '" ++ output ++ "'.\n" }

/-! ## The command -/

/-- The version of the program. -/
def versionNumber : String := "0.1.0"

/-- What the command is for and how it is called. -/
def help : String :=
  "pbrain compiles pbrain programs into standalone executables.\n\nUsage:\n" ++
  "  pbrain [flags] <file>\n  pbrain             start a REPL\n"

end Command

/-- What the arguments ask the command to do. -/
inductive Command where
  /-- The arguments are refused, or ask for help. -/
  | refuse (refusal : Options.Refusal)
  | showVersion
  /-- Read programs from a terminal. -/
  | interact
  /-- Run a source or a module. -/
  | run (options : Options) (path : String)
  /-- Compile a source. -/
  | compile (options : Options) (path : String)

namespace Command

/-- What arguments ask for. -/
def ofArguments (arguments : List String) : Command :=
  match Options.parse {} arguments with
  | .error refusal => .refuse refusal
  | .ok (o, rest) =>
    if o.version then .showVersion
    else
      match rest with
      | [] => .interact
      | path :: _ => if o.run then .run o path else .compile o path

/-- The file a command reads. -/
def input? : Command → Option String
  | .run _ path => some path
  | .compile _ path => some path
  | _ => none

/-- Whether a path is that of a module. -/
def isModulePath (path : String) : Bool :=
  Path.extension path == Path.moduleExtension

/-- Performs a command, given the steps a program may take, the runner for executables, what stands
at the path the command reads, and the standard input. There is no terminal to interact with. -/
def perform (limit : Nat) (runner : List UInt8) (entry : Except FileError Volume.Entry)
    (input : List UInt8) : Command → Performance
  | .refuse refusal =>
    let t : Transcript := {}
    let t := t.print help
    match refusal.message? with
    | none => { transcript := { t with err := Options.usage }, rest := .exit (.status 0) }
    | some message =>
      { transcript := { t with err := message ++ "\n" ++ Options.usage },
        rest := .exit (.status 2) }
  | .showVersion =>
    { transcript := Transcript.print {} ("pbrain " ++ versionNumber ++ "\n"),
      rest := .exit (.status 0) }
  | .interact =>
    { transcript := Transcript.print {} "inappropriate ioctl for device\n"
      rest := .exit (.status 0) }
  | .run o path =>
    if isModulePath path then
      match Volume.moduleOf path entry with
      | .error e => fail {} e.message
      | .ok code => execute limit code input {}
    else
      match Volume.contentOf path entry with
      | .error e => fail {} e.message
      | .ok source =>
        match build o path source {} with
        | (t, .error message) => fail t message
        | (t, .ok code) => execute limit code input t
  | .compile o path =>
    match Volume.contentOf path entry with
    | .error e => fail {} e.message
    | .ok source =>
      match build o path source {} with
      | (t, .error message) => fail t message
      | (t, .ok code) =>
        let t :=
          if o.emitModule then t
          else stage o t ("bundled " ++ runner.length.repr ++ " byte runner")
        { transcript := t, rest := .write (result o path runner code) }

/-- What an executable does when it is started: with a module inside it runs that, else it performs
the command of its arguments. -/
def start (limit : Nat) (executable : List UInt8) (entryAt : String → Except FileError Volume.Entry)
    (arguments : List String) (input : List UInt8) : Performance :=
  match Bundle.extract executable with
  | .error e => fail {} e.message
  | .ok (some code) => execute limit code input {}
  | .ok none =>
    let command := ofArguments arguments
    command.perform limit executable (entryAt (command.input?.getD "")) input

/-- The end of a performance, given whether its file could be written. -/
def Performance.finish (p : Performance) (written : Except FileError Unit) : Transcript × Exit :=
  match p.rest with
  | .exit e => (p.transcript, e)
  | .write r =>
    match written with
    | .ok () => (p.transcript.print r.notice, .status 0)
    | .error e => (p.transcript.complain (StorageError.unwritten r.path e).message, .status 1)

/-- Starts an executable in the working directory of a volume. -/
def startOn (limit : Nat) (executable : List UInt8) (v : Volume) (arguments : List String)
    (input : List UInt8) : Transcript × Exit × Volume :=
  let p := start limit executable v.entryAt arguments input
  match p.rest with
  | .exit _ =>
    let (t, e) := p.finish (.ok ())
    (t, e, v)
  | .write r =>
    match v.write r.path r.mode r.data with
    | .ok v =>
      let (t, e) := p.finish (.ok ())
      (t, e, v)
    | .error error =>
      let (t, e) := p.finish (.error error)
      (t, e, v)

end Command

end TapeLang
