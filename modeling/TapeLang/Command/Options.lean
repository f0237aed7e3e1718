/-
# Options of the command line

Options come before the other arguments, with one dash or two. Switches are set by their name alone
or by a truth value after an equals sign; the output option takes a value, after an equals sign or
as the next argument. The first argument that is no option ends them, and so does a double dash,
which is dropped.
-/
import TapeLang.Path
import TapeLang.Text.Quoted

namespace TapeLang

/-- What the command line asks for. -/
structure Options where
  showTree : Bool := false
  showBytecode : Bool := false
  showTokens : Bool := false
  showSource : Bool := false
  emitModule : Bool := false
  run : Bool := false
  verbose : Bool := false
  version : Bool := false
  /-- The output path; empty for the one made from the input's name. -/
  output : String := ""
deriving DecidableEq, Repr

namespace Options

/-- The switches among the options. -/
inductive Switch where
  | showTree
  | showBytecode
  | showTokens
  | showSource
  | emitModule
  | run
  | verbose
  | version
deriving DecidableEq, Repr

/-- Sets a switch. -/
def set (o : Options) (on : Bool) : Switch → Options
  | .showTree => { o with showTree := on }
  | .showBytecode => { o with showBytecode := on }
  | .showTokens => { o with showTokens := on }
  | .showSource => { o with showSource := on }
  | .emitModule => { o with emitModule := on }
  | .run => { o with run := on }
  | .verbose => { o with verbose := on }
  | .version => { o with version := on }

/-- An option by its name: a switch, or the one that takes a value. -/
inductive Name where
  | switch (s : Switch)
  | output

/-- The option of a name. -/
def Name.ofString? : String → Option Name
  | "debug-ast" => some (switch .showTree)
  | "debug-bytecode" => some (switch .showBytecode)
  | "debug-tokens" => some (switch .showTokens)
  | "debug-source" => some (switch .showSource)
  | "emit-module" => some (switch .emitModule)
  | "run" => some (switch .run)
  | "v" => some (switch .verbose)
  | "version" => some (switch .version)
  | "o" => some output
  | _ => none

/-- The truth values. -/
def truth? (value : String) : Option Bool :=
  if value ∈ ["1", "t", "T", "true", "TRUE", "True"] then some true
  else if value ∈ ["0", "f", "F", "false", "FALSE", "False"] then some false
  else none

/-- Why options are not taken. -/
inductive Refusal where
  /-- Help is asked for. -/
  | help
  | badSyntax (argument : String)
  | undefined (name : String)
  | missingValue (name : String)
  | badTruth (value name : String)
deriving DecidableEq, Repr

/-- What is said about a refusal; asking for help is no mistake. -/
def Refusal.message? : Refusal → Option String
  | help => none
  | badSyntax argument => some ("bad flag syntax: " ++ argument)
  | undefined name => some ("flag provided but not defined: -" ++ name)
  | missingValue name => some ("flag needs an argument: -" ++ name)
  | badTruth value name =>
    some ("invalid boolean value " ++ Quoted.quote value ++ " for -" ++ name ++ ": parse error")

/-- The name and the value of an option, given what follows its dashes. -/
def split (text : List Char) : String × Option String :=
  let name := text.takeWhile fun c => c != '='
  match text.drop name.length with
  | [] => (String.ofList name, none)
  | _ :: value => (String.ofList name, some (String.ofList value))

/-- The shape of an argument. -/
inductive Shape where
  /-- No option: the options end before it. -/
  | plain
  /-- The double dash: the options end with it. -/
  | separator
  /-- Dashes that begin no option. -/
  | malformed
  /-- An option with its name and its value. -/
  | option (name : String) (value : Option String)

/-- What follows the dashes of an option must begin its name. -/
def Shape.ofName : List Char → Shape
  | [] => .malformed
  | '-' :: _ => .malformed
  | '=' :: _ => .malformed
  | name => let (name, value) := split name; .option name value

/-- The shape of an argument. -/
def Shape.of (argument : String) : Shape :=
  match argument.toList with
  | ['-', '-'] => .separator
  | '-' :: '-' :: name => .ofName name
  | ['-'] => .plain
  | '-' :: name => .ofName name
  | _ => .plain

/-- Takes the options off the front of the arguments. -/
def parse (o : Options) : List String → Except Refusal (Options × List String)
  | [] => .ok (o, [])
  | argument :: rest =>
    match Shape.of argument with
    | .plain => .ok (o, argument :: rest)
    | .separator => .ok (o, rest)
    | .malformed => .error (.badSyntax argument)
    | .option name value =>
      match Name.ofString? name with
      | none => if name = "help" ∨ name = "h" then .error .help else .error (.undefined name)
      | some (.switch s) =>
        match value with
        | none => parse (o.set true s) rest
        | some value =>
          match truth? value with
          | some on => parse (o.set on s) rest
          | none => .error (.badTruth value name)
      | some .output =>
        match value with
        | some value => parse { o with output := value } rest
        | none =>
          match rest with
          | value :: rest => parse { o with output := value } rest
          | [] => .error (.missingValue name)

/-- The list of options. -/
def usage : String :=
  "  -debug-ast\n    \tprint the program tree\n" ++
  "  -debug-bytecode\n    \tprint bytecode\n" ++
  "  -debug-source\n    \tprint the highlighted source\n" ++
  "  -debug-tokens\n    \tprint run-length grouped tokens\n" ++
  "  -emit-module\n    \twrite a bare " ++ Path.moduleExtension ++
    " module instead of an executable\n" ++
  "  -o string\n    \toutput path (default: input base name in the working directory)\n" ++
  "  -run\n    \trun a source or module file instead of compiling it\n" ++
  "  -v\treport each compilation stage\n" ++
  "  -version\n    \tprint the version\n"

end Options

end TapeLang
