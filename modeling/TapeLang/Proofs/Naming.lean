/-
# The names of results

A result is named for its input: for the last element of the path, without its extension. That of an
executable is never the name of the input, `Path.executableName_apart`: a name without an extension,
or with nothing else, gets one behind it. A module gets the extension of modules whatever the input
is called, so its name is that of the input exactly if the input has the name of a module:
`Command.path_eq_base_iff`.

The parts of a path are those that `List.rtakeWhile` and `List.rdropWhile` give.
-/
import Mathlib
import TapeLang.Command

namespace TapeLang

namespace Path

/-! ## The last element -/

/-- What the last element of a path is: a dot if there is no path, a slash if there are only
slashes, and else what stands between the last slash before it and the slashes at the end. -/
inductive LastElement : List Char → List Char → Prop
  | none : LastElement [] ['.']
  | root {path : List Char} (nonempty : path ≠ []) (slashes : ∀ c ∈ path, c = '/') :
      LastElement path ['/']
  | element {before name after : List Char} (behind : ∀ c ∈ before.getLast?, c = '/')
      (nonempty : name ≠ []) (plain : '/' ∉ name) (slashes : ∀ c ∈ after, c = '/') :
      LastElement (before ++ name ++ after) name

theorem lastElement_eq (path : List Char) : lastElement path = path.rtakeWhile (· != '/') := rfl

theorem not_mem_lastElement (path : List Char) : '/' ∉ lastElement path := by
  intro member
  exact absurd (List.mem_rtakeWhile_imp member) (by decide)

/-- What stands before the last element ends in a slash. -/
theorem exists_lastElement (path : List Char) :
    ∃ before, path = before ++ lastElement path ∧ ∀ c ∈ before.getLast?, c = '/' := by
  refine ⟨path.rdropWhile (· != '/'), List.rdropWhile_append_rtakeWhile.symm, ?_⟩
  intro c last
  obtain ⟨nonempty, rfl⟩ := List.mem_getLast?_eq_getLast last
  simpa using List.rdropWhile_last_not _ path nonempty

/-- Without slashes at its end, a path has a last element unless it is empty. -/
theorem trimSlashes_eq_nil {path : List Char} (nothing : lastElement (trimSlashes path) = []) :
    trimSlashes path = [] := by
  by_contra given
  rw [lastElement_eq, List.rtakeWhile_eq_nil_iff] at nothing
  have slash := nothing given
  have other : ¬ ((trimSlashes path).getLast given == '/') = true :=
    List.rdropWhile_last_not _ path given
  simp_all

theorem lastElement_baseChars (path : List Char) : LastElement path (baseChars path) := by
  have trimmed : trimSlashes path ++ path.rtakeWhile (· == '/') = path :=
    List.rdropWhile_append_rtakeWhile
  have slashes : ∀ c ∈ path.rtakeWhile (· == '/'), c = '/' := by
    intro c member
    simpa using List.mem_rtakeWhile_imp member
  obtain ⟨before, whole, behind⟩ := exists_lastElement (trimSlashes path)
  unfold baseChars
  split
  case isTrue empty =>
    rw [List.isEmpty_iff.1 empty]
    exact .none
  case isFalse given =>
    split
    case h_1 nothing =>
      rw [trimSlashes_eq_nil nothing, List.nil_append] at trimmed
      refine .root (by simpa using given) ?_
      rwa [trimmed] at slashes
    case h_2 other =>
      have element := LastElement.element behind other (not_mem_lastElement _) slashes
      rwa [← whole, trimmed] at element

theorem LastElement.ne_nil {path name : List Char} (h : LastElement path name) : name ≠ [] := by
  cases h with
  | none | root => exact List.cons_ne_nil _ _
  | element behind nonempty => exact nonempty

theorem LastElement.eq_of_slash {path name : List Char} (h : LastElement path name)
    (slash : '/' ∈ name) : name = ['/'] := by
  cases h with
  | none => exact absurd slash (by decide)
  | root => rfl
  | element behind nonempty plain => exact absurd slash plain

/-! ## Stems and extensions -/

theorem exists_behind_last {z : Char} {name : List Char} (member : z ∈ name) :
    ∃ before, name = before ++ z :: name.rtakeWhile (· != z) := by
  have given : name.rdropWhile (· != z) ≠ [] := by
    intro nothing
    have other := List.rdropWhile_eq_nil_iff.1 nothing z member
    simp at other
  have last : (name.rdropWhile (· != z)).getLast given = z := by
    simpa using List.rdropWhile_last_not _ name given
  have split : (name.rdropWhile (· != z)).dropLast ++ [z] = name.rdropWhile (· != z) := by
    conv_rhs => rw [← List.dropLast_append_getLast given, last]
  refine ⟨(name.rdropWhile (· != z)).dropLast, ?_⟩
  calc
    name = name.rdropWhile (· != z) ++ name.rtakeWhile (· != z) :=
      List.rdropWhile_append_rtakeWhile.symm
    _ = (name.rdropWhile (· != z)).dropLast ++ [z] ++ name.rtakeWhile (· != z) := by rw [split]
    _ = (name.rdropWhile (· != z)).dropLast ++ z :: name.rtakeWhile (· != z) := by
      rw [List.append_assoc, List.singleton_append]

theorem extensionChars_isSuffix (name : List Char) : extensionChars name <:+ name := by
  have inside : lastElement name <:+ name := List.rtakeWhile_suffix _ name
  simp only [extensionChars]
  split
  case isTrue dot =>
    obtain ⟨before, same⟩ := exists_behind_last dot
    exact List.IsSuffix.trans ⟨before, same.symm⟩ inside
  case isFalse => exact List.nil_suffix

/-- A name is its stem with its extension behind it. -/
theorem stemChars_append_extensionChars (name : List Char) :
    stemChars name ++ extensionChars name = name := by
  obtain ⟨stem, same⟩ := extensionChars_isSuffix name
  have length : name.length - (extensionChars name).length = stem.length := by
    have lengths := congrArg List.length same
    rw [List.length_append] at lengths
    omega
  have front : stemChars name = stem := by
    rw [stemChars, length, ← same, List.take_left]
  rw [front, same]

/-! ## Executables -/

/-- An executable has the last element of the path as its name, with an extension behind it or
without the one that it has. -/
theorem executableName_cases (path : String) :
    (executableName path).toList = baseChars path.toList ++ ".out".toList ∨
      (executableName path).toList ≠ [] ∧
        ∃ extension, extension ≠ [] ∧
          baseChars path.toList = (executableName path).toList ++ extension := by
  have whole := stemChars_append_extensionChars (baseChars path.toList)
  simp only [executableName]
  by_cases bare : (stemChars (baseChars path.toList)).isEmpty = true
  · left
    rw [if_pos bare, if_pos rfl, String.toList_append, String.toList_ofList]
  · rw [if_neg bare]
    by_cases same : stemChars (baseChars path.toList) = baseChars path.toList
    · left
      rw [if_pos same, String.toList_append, String.toList_ofList, same]
    · right
      rw [if_neg same, String.toList_ofList]
      refine ⟨by simpa using bare, _, ?_, whole.symm⟩
      intro nothing
      rw [nothing, List.append_nil] at whole
      exact same whole

/-- **An executable does not have the name of its input.** For every path, the name is not empty and
is not the last element of the path, and it has no slash in it unless that element is a slash. -/
theorem executableName_apart (path : String) :
    executableName path ≠ "" ∧ executableName path ≠ base path ∧
      ('/' ∈ (executableName path).toList → base path = "/") := by
  have element := lastElement_baseChars path.toList
  have chars : (base path).toList = baseChars path.toList := String.toList_ofList
  have root : '/' ∈ baseChars path.toList → base path = "/" := by
    intro slash
    rw [base, element.eq_of_slash slash]
  rcases executableName_cases path with longer | ⟨given, extension, nonempty, shorter⟩
  · refine ⟨?_, ?_, ?_⟩
    · intro empty
      rw [empty] at longer
      exact element.ne_nil (List.append_eq_nil_iff.1 longer.symm).1
    · intro same
      rw [same, chars] at longer
      exact absurd (List.self_eq_append_right.1 longer) (by decide)
    · intro slash
      rw [longer] at slash
      rcases List.mem_append.1 slash with inside | behind
      · exact root inside
      · exact absurd behind (by decide)
  · refine ⟨?_, ?_, ?_⟩
    · intro empty
      exact given (congrArg String.toList empty)
    · intro same
      rw [same, chars] at shorter
      exact nonempty (List.self_eq_append_right.1 shorter)
    · intro slash
      exact root (shorter ▸ List.mem_append_left _ slash)

/-- Only the last extension goes, and a name without one, or with nothing else, gets another one. -/
example :
    executableName "dir/archive.tar.pb" = "archive.tar" ∧ executableName "noext/" = "noext.out" ∧
      executableName ".pb" = ".pb.out" := by
  decide

/-! ## Modules -/

/-- A module has the name of its input exactly if that has the extension of modules. -/
theorem moduleName_eq_base_iff (path : String) :
    moduleName path = base path ↔ extension (base path) = moduleExtension := by
  have whole := stemChars_append_extensionChars (baseChars path.toList)
  have parts : base path = String.ofList (stemChars (baseChars path.toList)) ++
      extension (base path) := by
    rw [extension, base, String.toList_ofList, ← String.ofList_append, whole]
  constructor
  · intro same
    rw [parts, moduleName] at same
    exact (String.append_right_inj _).1 same.symm
  · intro same
    rw [moduleName, ← same, ← parts]

end Path

namespace Command

/-- **When a module is written over its input.** If no name is asked for, the module gets the name
of its input, which is then lost where it is in the working directory, exactly if that name has the
extension of modules. -/
theorem path_eq_base_iff (o : Options) (path : String) (runner : List UInt8) (code : Bytecode) :
    (result { o with emitModule := true, output := "" } path runner code).path = Path.base path ↔
      Path.extension (Path.base path) = Path.moduleExtension :=
  Path.moduleName_eq_base_iff path

/-- A source with the name of a module: its module is written to the file that was read. -/
theorem path_eq_input_of_module :
    ofArguments ["-emit-module", "x.pbc"] = .compile { emitModule := true } "x.pbc" ∧
      ∀ runner code, (result { emitModule := true } "x.pbc" runner code).path = "x.pbc" := by
  have name : Path.moduleName "x.pbc" = "x.pbc" := by decide
  refine ⟨?_, fun _ _ => name⟩
  cbv

end Command

end TapeLang
