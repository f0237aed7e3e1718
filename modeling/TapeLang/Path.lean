/-
# Paths

Names of files. A path is a text in which slashes separate the elements. `base` is its last element
and `extension` what follows the last dot of that element, the dot included. The names of results
are made from the input's base name, so that they land in the working directory and never on the
input itself.
-/

namespace TapeLang.Path

/-- What follows the last slash, which is everything if there is none. -/
def lastElement (path : List Char) : List Char :=
  (path.reverse.takeWhile fun c => c != '/').reverse

/-- A path without the slashes at its end. -/
def trimSlashes (path : List Char) : List Char :=
  (path.reverse.dropWhile fun c => c == '/').reverse

/-- The last element of a path: a dot if the path is empty, a slash if it has nothing but
slashes. -/
def baseChars (path : List Char) : List Char :=
  if path.isEmpty then ['.']
  else
    match lastElement (trimSlashes path) with
    | [] => ['/']
    | name => name

/-- The last dot of the last element and what follows it; nothing if there is no dot. -/
def extensionChars (path : List Char) : List Char :=
  let name := lastElement path
  if '.' ∈ name then '.' :: (name.reverse.takeWhile fun c => c != '.').reverse else []

/-- A name without its extension. -/
def stemChars (name : List Char) : List Char :=
  name.take (name.length - (extensionChars name).length)

/-- The last element of a path. -/
def base (path : String) : String :=
  String.ofList (baseChars path.toList)

/-- The extension of a path, dot included. -/
def extension (path : String) : String :=
  String.ofList (extensionChars path.toList)

/-- The extension of a module's file. -/
def moduleExtension : String := ".pbc"

/-- The name of the executable made from an input: the base name without its extension. A base name
that is nothing but an extension is kept, and a name that would be the input's own gets an
extension. -/
def executableName (input : String) : String :=
  let base := baseChars input.toList
  let stem := stemChars base
  let name := if stem.isEmpty then base else stem
  if name = base then String.ofList name ++ ".out" else String.ofList name

/-- The name of the module made from an input: the base name with the extension of modules. -/
def moduleName (input : String) : String :=
  String.ofList (stemChars (baseChars input.toList)) ++ moduleExtension

end TapeLang.Path
