/-
# Volumes

The files that a command sees: a working directory with files and directories in it, and the
directories around it. A path is followed element by element from the working directory; what it
passes through must be directories. Files are either plain or executable, and a file that is written
again keeps its mode. A directory is made in one that is there already: `makeDirectory_eq_ok_iff`.
-/

namespace TapeLang

/-- Why a path does not serve. -/
inductive FileError.Cause where
  /-- Nothing stands there, or nothing on the way there. -/
  | missing
  /-- The path leads through a file. -/
  | notDirectory
  /-- A directory stands where a file is to be written. -/
  | isDirectory
  /-- Something stands where a directory is to be made. -/
  | occupied
  /-- The path or one of its names is too long. -/
  | tooLong
  /-- No path contains the null character. -/
  | malformed
  /-- The user may not. -/
  | denied
deriving DecidableEq, Repr

/-- How a cause is reported. -/
def FileError.Cause.message : FileError.Cause → String
  | missing => "no such file or directory"
  | notDirectory => "not a directory"
  | isDirectory => "is a directory"
  | occupied => "file exists"
  | tooLong => "file name too long"
  | malformed => "invalid argument"
  | denied => "permission denied"

/-- What can not be done with a path, and why. -/
inductive FileError where
  /-- A file can not be opened, be it to read it or to write it. -/
  | unopened (path : String) (cause : FileError.Cause)
  /-- A directory can be opened, but its content can not be read. -/
  | unreadable (path : String)
  /-- A directory can not be made. -/
  | unmade (path : String) (cause : FileError.Cause)
deriving DecidableEq, Repr

/-- How a file error is reported. -/
def FileError.message : FileError → String
  | unopened path cause => "open " ++ path ++ ": " ++ cause.message
  | unreadable path => "read " ++ path ++ ": " ++ Cause.isDirectory.message
  | unmade path cause => "mkdir " ++ path ++ ": " ++ cause.message

/-- What a file may be used for. -/
inductive Volume.Mode where
  | plain
  | executable
deriving DecidableEq, Repr

/-- The permissions of a mode, in octal digits. -/
def Volume.Mode.octal : Mode → String
  | plain => "0644"
  | executable => "0755"

/-- What stands at a path. -/
inductive Volume.Entry where
  | file (mode : Volume.Mode) (data : List UInt8)
  | directory
  /-- A file that is always empty: what is written to it is lost. -/
  | null
deriving DecidableEq, Repr

/-- A directory from which places are counted. -/
inductive Volume.Origin where
  /-- The directory that many levels above the working directory, which is none above itself. -/
  | above (levels : Nat)
  /-- The directory where paths that begin with a slash start. -/
  | root
deriving DecidableEq, Repr

/-- Where a path leads: to the elements' place, counted from an origin. -/
structure Volume.Place where
  origin : Volume.Origin
  elements : List String
deriving DecidableEq, Repr

/-- The entries of the directories that a command sees. Origins are always there, and at first
nothing else is known to be. -/
structure Volume where
  entries : List (Volume.Place × Volume.Entry) := []
deriving Repr

namespace Volume

/-- The working directory. -/
def Place.working : Place :=
  { origin := .above 0, elements := [] }

/-- The place of a name in a directory. -/
def Place.child (directory : Place) (name : String) : Place :=
  { directory with elements := directory.elements ++ [name] }

/-- The directory that a directory is in. The root is in itself. -/
def Place.parent (directory : Place) : Place :=
  match directory.elements, directory.origin with
  | [], .above levels => { origin := .above (levels + 1), elements := [] }
  | [], .root => directory
  | elements, origin => { origin := origin, elements := elements.dropLast }

/-- What stands at a place. -/
def at? (v : Volume) (place : Place) : Option Entry :=
  if place.elements.isEmpty then some .directory else v.entries.lookup place

/-- Puts an entry at a place. -/
def put (v : Volume) (place : Place) (entry : Entry) : Volume :=
  { entries := (place, entry) :: v.entries.filter fun x => x.1 != place }

/-- The elements of a path. -/
def elements (path : String) : List String :=
  (path.splitOn "/").filter fun e => !e.isEmpty

/-- Where a path starts. -/
def start (path : String) : Place :=
  if path.startsWith "/" then { origin := .root, elements := [] } else .working

/-- A name of more bytes is refused by every directory. -/
def longestName : Nat := 255

/-- A path of more bytes is not followed. -/
def longestPath : Nat := 4095

/-- Follows elements from a place, which is a directory. The last element need not exist. -/
def follow (v : Volume) (place : Place) : List String → Except FileError.Cause Place
  | [] => .ok place
  | "." :: rest => v.follow place rest
  | ".." :: rest => v.follow place.parent rest
  | [name] => .ok (place.child name)
  | name :: rest =>
    if longestName < name.utf8ByteSize then .error .tooLong
    else
      match v.at? (place.child name) with
      | some .directory => v.follow (place.child name) rest
      | some _ => .error .notDirectory
      | none => .error .missing

/-- The place a path leads to. -/
def locate (v : Volume) (path : String) : Except FileError.Cause Place :=
  if path.contains '\x00' then .error .malformed
  else if path.isEmpty then .error .missing
  else if longestPath < path.utf8ByteSize then .error .tooLong
  else v.follow (start path) (elements path)

/-- Looks for what stands at a place. -/
def look (v : Volume) (place : Place) : Except FileError.Cause (Option Entry) :=
  if place.elements.getLast?.any (longestName < ·.utf8ByteSize) then .error .tooLong
  else .ok (v.at? place)

/-- What stands at a path, or why it can not be had. A path that ends in a slash leads to
directories only. -/
def find (v : Volume) (path : String) : Except FileError.Cause Entry := do
  let place ← v.locate path
  match ← v.look place with
  | none => .error .missing
  | some .directory => .ok .directory
  | some entry => if path.endsWith "/" then .error .notDirectory else .ok entry

/-- What is opened at a path. -/
def entryAt (v : Volume) (path : String) : Except FileError Entry :=
  (v.find path).mapError (.unopened path)

/-- The content of what was found at a path. -/
def contentOf (path : String) : Except FileError Entry → Except FileError (List UInt8)
  | .error e => .error e
  | .ok .directory => .error (.unreadable path)
  | .ok (.file _ data) => .ok data
  | .ok .null => .ok []

/-- The content of the file at a path. -/
def read (v : Volume) (path : String) : Except FileError (List UInt8) :=
  contentOf path (v.entryAt path)

/-- The volume with content written to a place. A new file gets the given mode, and an old one keeps
its own. -/
def writeAt (v : Volume) (place : Place) (mode : Mode) (data : List UInt8) :
    Option Entry → Except FileError.Cause Volume
  | none => .ok (v.put place (.file mode data))
  | some (.file mode _) => .ok (v.put place (.file mode data))
  | some .null => .ok v
  | some .directory => .error .isDirectory

/-- Writes the file at a path. No file is written to a path that ends in a slash. -/
def write (v : Volume) (path : String) (mode : Mode) (data : List UInt8) :
    Except FileError Volume :=
  Except.mapError (.unopened path) do
    let place ← v.locate path
    if path.endsWith "/" then .error .isDirectory
    else v.writeAt place mode data (← v.look place)

/-- Makes the directory at a path. What it is in must be there, and nothing may stand at the
path. -/
def makeDirectory (v : Volume) (path : String) : Except FileError Volume :=
  Except.mapError (.unmade path) do
    let place ← v.locate path
    match ← v.look place with
    | none => .ok (v.put place .directory)
    | some _ => .error .occupied

/-- A directory is made exactly where a path leads to a place at which nothing stands. -/
theorem makeDirectory_eq_ok_iff {v w : Volume} {path : String} :
    v.makeDirectory path = .ok w ↔
      ∃ place, v.locate path = .ok place ∧ v.look place = .ok none ∧
        w = v.put place .directory := by
  unfold makeDirectory
  rcases v.locate path with cause | place
  · constructor
    · intro h
      cases h
    · rintro ⟨place, located, -, -⟩
      cases located
  · simp only [bind, Except.bind]
    constructor
    · intro h
      rcases looked : v.look place with cause | _ | entry <;> rw [looked] at h <;> cases h
      exact ⟨place, rfl, looked, rfl⟩
    · rintro ⟨_, located, looked, rfl⟩
      cases located
      rw [looked]
      rfl

/-- Puts a directory at each place on the way from a directory along names. -/
def addDirectories (v : Volume) (place : Place) : List String → Volume
  | [] => v
  | name :: names => (v.put (place.child name) .directory).addDirectories (place.child name) names

/-- Puts a plain file into the working directory, by its name there. The directories it is in are
put there with it. -/
def addFile (v : Volume) (name : String) (data : List UInt8) : Volume :=
  let names := elements name
  (v.addDirectories .working names.dropLast).put { Place.working with elements := names }
    (.file .plain data)

/-- The directories that stand in the root. -/
def rootNames : List String :=
  ["bin", "dev", "etc", "home", "lib", "opt", "proc", "root", "run", "sbin", "srv", "sys", "tmp",
    "usr", "var"]

/-- A volume with an empty working directory. -/
def fresh : Volume :=
  let root : Place := { origin := .root, elements := [] }
  let directories := rootNames.map fun name => (root.child name, Entry.directory)
  { entries := ((root.child "dev").child "null", .null) :: directories }

/-- The files of the working directory with their names there, in the order of the names. -/
def files (v : Volume) : List (String × Mode × List UInt8) :=
  let named := v.entries.filterMap fun
    | (⟨.above 0, names⟩, .file mode data) => some ("/".intercalate names, mode, data)
    | _ => none
  named.mergeSort fun a b => a.1 ≤ b.1

end Volume

end TapeLang
