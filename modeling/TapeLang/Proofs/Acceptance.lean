/-
# Which sources can be built

The number of a procedure has a field of two bytes, and whether it fits is only looked at where the
procedure is registered: in the main body first, and then in one procedure after the other. Since a
source registers each of its procedures at one place, whatever loops and procedures that place
stands in, every number is looked at, and the first one that does not fit is refused:
`Program.WellFormed.map_compile`. So a source can be built just when its brackets are nested and its
procedures are no more than there are numbers: `build_judges`.
-/
import TapeLang.Proofs.Nesting
import TapeLang.Proofs.Numbering

namespace TapeLang

/-! ## The number that is refused -/

namespace Node

/-- What is said of numbers that are registered one after the other: the first one that does not fit
its field is refused. -/
def checkNumbers (ids : List Int) : Except CompileError Unit :=
  match ids.find? fun id => lastProcedure < id with
  | some id => .error (.tooManyProcedures id)
  | none => .ok ()

variable {ids : List Int} {nodes : List Node}

theorem checkNumbers_cons (id : Int) (ids : List Int) :
    checkNumbers (id :: ids) = if lastProcedure < id then .error (.tooManyProcedures id)
      else checkNumbers ids := by
  unfold checkNumbers
  rw [List.find?_cons]
  by_cases large : lastProcedure < id <;> simp [large]

/-- Numbers side by side are checked one part after the other. -/
theorem checkNumbers_append (a b : List Int) :
    checkNumbers (a ++ b) = (do checkNumbers a; checkNumbers b) := by
  induction a with
  | nil => rfl
  | cons id a ih =>
    rw [List.cons_append, checkNumbers_cons, checkNumbers_cons, ih]
    split <;> rfl

/-- Numbers pass if none of them is beyond the last one that fits an operand. -/
theorem checkNumbers_eq_ok_iff : checkNumbers ids = .ok () ↔ ∀ id ∈ ids, id ≤ lastProcedure := by
  induction ids with
  | nil => simp [checkNumbers]
  | cons id ids ih =>
    rw [checkNumbers_cons, List.forall_mem_cons, ← ih]
    split
    · next large => simp [Int.not_le.2 large]
    · next fits => simp [Int.not_lt.1 fits]

/-- The number that is refused is one of them, and beyond the last one. -/
theorem exists_of_checkNumbers_eq_error {e : CompileError} (h : checkNumbers ids = .error e) :
    ∃ id ∈ ids, lastProcedure < id ∧ e = .tooManyProcedures id := by
  unfold checkNumbers at h
  split at h
  · next id found =>
    cases h
    exact ⟨id, List.mem_of_find?_eq_some found, by simpa using List.find?_some found, rfl⟩
  · cases h

theorem isWritten_tail {node : Node} (h : isWritten (node :: nodes) = true) :
    isWritten nodes = true := by
  cases node <;> simp_all [isWritten]

/-- Of nodes such as a source has, nothing but the numbers that they register can be refused. -/
theorem checkAll_eq_checkNumbers (written : isWritten nodes = true) :
    checkAll .standard nodes = checkNumbers (registered nodes) := by
  fun_induction registered nodes with
  | case1 => rfl
  | case2 body rest => simp [isWritten] at written
  | case3 body rest ihBody ih =>
    rw [isWritten, Bool.and_eq_true] at written
    rw [checkAll, check_loop, checkNumbers_append, ihBody written.1, ih written.2]
  | case4 id rest ih =>
    rw [isWritten] at written
    · rw [checkAll, check, checkNumbers_cons, ih written, InstructionSet.check_standard]
      split <;> rfl
    all_goals simp
  | case5 leaf rest noSequence noLoop noRegister ih =>
    cases leaf with
    | sequence body => exact absurd rfl (noSequence body)
    | loop body => exact absurd rfl (noLoop body)
    | register id => exact absurd rfl (noRegister id)
    | procedure id body => simp [isWritten] at written
    | _ =>
      rw [checkAll, check, InstructionSet.check_standard]
      · exact ih (isWritten_tail written)
      all_goals simp

end Node

namespace Program

/-- Of procedures that stand at the places of their numbers, only the numbers that they register can
be refused. -/
theorem checkProcedures_eq_checkNumbers (next : Nat) {procedures : List Procedure}
    (numbered : ∀ (i : Nat) q, procedures[i]? = some q → q.id = (next + i : Nat))
    (written : ∀ q ∈ procedures, Node.isWritten q.body = true) :
    checkProcedures .standard next procedures =
      Node.checkNumbers (procedures.flatMap fun q => Node.registered q.body) := by
  induction procedures generalizing next with
  | nil => rfl
  | cons q rest ih =>
    have place : q.id = next := numbered 0 q rfl
    have later := ih (next + 1)
      (fun i r found => by
        rw [numbered (i + 1) r found]
        omega)
      fun r hr => written r (List.mem_cons_of_mem _ hr)
    rw [checkProcedures, if_neg (by simp [place]),
      Node.checkAll_eq_checkNumbers (written q List.mem_cons_self),
      InstructionSet.check_standard, List.flatMap_cons, Node.checkNumbers_append, ← later]
    rfl

/-- **Whether a program such as a source has can be compiled** is said by the numbers that it
registers, and of these the first one, in the order of the code, that does not fit is refused. -/
theorem WellFormed.map_compile {p : Program} (wellFormed : p.WellFormed) :
    p.compile.map (fun _ => ()) = Node.checkNumbers p.registered := by
  have written := List.forall_mem_cons.1 wellFormed.written
  have main : p.checkMain .standard = Node.checkNumbers (Node.registered p.main) := by
    rw [checkMain, InstructionSet.check_standard, InstructionSet.check_standard,
      Node.checkAll_eq_checkNumbers written.1]
    cases Node.checkNumbers (Node.registered p.main) <;> rfl
  have procedures : checkProcedures .standard 0 p.procedures =
      Node.checkNumbers (p.procedures.flatMap fun q => Node.registered q.body) :=
    checkProcedures_eq_checkNumbers 0 (by simpa using wellFormed.numbered)
      fun q hq => written.2 _ (List.mem_map_of_mem hq)
  have registered : p.registered =
      Node.registered p.main ++ p.procedures.flatMap fun q => Node.registered q.body := by
    rw [Program.registered, bodies, List.flatMap_cons, List.flatMap_map]
  rw [compile, compileFor, main, procedures, registered, Node.checkNumbers_append]
  cases Node.checkNumbers (Node.registered p.main) with
  | error e => rfl
  | ok _ => cases Node.checkNumbers (p.procedures.flatMap fun q => Node.registered q.body) <;> rfl

/-! ## The programs of sources -/

variable {source : List UInt8} {p : Program}

/-- The word of the located bytes of a source is that of the source. -/
theorem wordOf_ofBytes (source : List UInt8) :
    Bracket.wordOf (Located.ofBytes source) = Bracket.word source := by
  rw [Bracket.wordOf, Located.map_byte_ofBytes]

/-- A source that is read has nested brackets. -/
theorem nested_of_parse (read : parse source = .ok p) : Bracket.Nested (Bracket.word source) := by
  obtain ⟨main, bodies, reads, -⟩ := parse_eq_ok_iff.1 read
  rw [← wordOf_ofBytes]
  exact reads.nested

/-- A source with nested brackets has a program, which registers the numbers from zero on, one for
each of its opening brackets. -/
theorem exists_parse_of_nested (nested : Bracket.Nested (Bracket.word source)) :
    ∃ p, parse source = .ok p ∧ p.WellFormed ∧ p.procedures.length = source.count '('.toUInt8 ∧
      p.registered.Perm (Procedure.numbers 0 (source.count '('.toUInt8)) := by
  rw [← wordOf_ofBytes] at nested
  obtain ⟨main, bodies, reads⟩ := Reads.of_nested _ 0 nested
  have count : bodies.length = source.count '('.toUInt8 := by
    rw [reads.length_bodies, Located.count_eq (by decide), Located.map_byte_ofBytes]
    rfl
  refine ⟨_, parse_eq_ok_iff.2 ⟨main, bodies, reads, rfl⟩, wellFormed_of_reads reads, ?_, ?_⟩
  · simpa [numbered] using count
  · rw [Program.registered, Program.bodies, map_body_numbered, ← count]
    exact reads.registered_perm

/-- A program that registers the numbers from zero on can be compiled if they are no more than their
field has room for, and otherwise one of the numbers beyond is refused. -/
theorem WellFormed.compile_cases (wellFormed : p.WellFormed) {count : Nat}
    (perm : p.registered.Perm (Procedure.numbers 0 count)) :
    (count ≤ 65536 ∧ ∃ code, p.compile = .ok code) ∨
      (65536 < count ∧ ∃ n : Nat, 65537 ≤ n ∧ n ≤ count ∧
        p.compile = .error (.tooManyProcedures ((n : Int) - 1))) := by
  have verdict := wellFormed.map_compile
  cases compiled : p.compile with
  | ok code =>
    rw [compiled] at verdict
    have fit := Node.checkNumbers_eq_ok_iff.1 verdict.symm
    refine .inl ⟨?_, code, rfl⟩
    -- With more procedures, the number behind the last one that fits would be registered somewhere.
    by_contra many
    have beyond : (65536 : Int) ∈ p.registered :=
      perm.mem_iff.2 (Procedure.mem_numbers.2 (by omega))
    exact absurd (fit _ beyond) (by decide)
  | error e =>
    rw [compiled] at verdict
    obtain ⟨id, member, large, rfl⟩ := Node.exists_of_checkNumbers_eq_error verdict.symm
    have range := Procedure.mem_numbers.1 (perm.mem_iff.1 member)
    unfold Node.lastProcedure at large
    refine .inr ⟨by omega, (id + 1).toNat, by omega, by omega, ?_⟩
    rw [show (((id + 1).toNat : Nat) : Int) - 1 = id by omega]

end Program

/-- A source that is read builds as its program compiles. -/
theorem build_of_parse {source : List UInt8} {p : Program} (read : Program.parse source = .ok p) :
    build source = p.compile.mapError .compile := by
  rw [build, buildFor, read]
  rfl

/-- The message names the number of procedures that would be needed: no source is so long that this
number would not be its own signed 64-bit number. -/
theorem message_tooManyProcedures {source : List UInt8} {n : Nat}
    (few : n ≤ source.count '('.toUInt8) (short : source.length < 2 ^ 63) :
    (CompileError.tooManyProcedures ((n : Int) - 1)).message =
      "too many procedures: " ++ Decimal.text n := by
  have bound : (n : Int) < 0x8000000000000000 := by
    have := source.count_le_length (a := '('.toUInt8)
    omega
  have needed : Word.wrap ((n : Int) - 1 + 1) = n := by
    rw [Int.sub_add_cancel, Word.wrap_eq_self (by omega) bound]
  exact congrArg (fun k => "too many procedures: " ++ Decimal.text k) needed

/-! ## The verdict on a source -/

/-- What building makes of a source. Besides brackets without partners, of which reading complains,
only the number of procedures can be wrong: no node of a source is unknown, and no procedure is out
of order. -/
structure Judged (source : List UInt8) : Prop where
  /-- A source can be built just when its brackets are nested and each procedure has a number that
  fits. -/
  accepted : (∃ code, build source = .ok code) ↔
    Bracket.Nested (Bracket.word source) ∧ source.count '('.toUInt8 ≤ 65536
  /-- There is a unit for each opening bracket. -/
  units : ∀ code, build source = .ok code → code.procedures.size = source.count '('.toUInt8
  /-- Brackets that are not nested are found when the source is read. -/
  unmatched : (∃ e, build source = .error (.parse e)) ↔ ¬ Bracket.Nested (Bracket.word source)
  /-- With nested brackets and more procedures, compiling is refused. -/
  refused : (∃ e, build source = .error (.compile e)) ↔
    Bracket.Nested (Bracket.word source) ∧ 65536 < source.count '('.toUInt8
  /-- What is refused is a procedure whose number does not fit, and it is told how many procedures
  would be needed for it; the lengths of sources are signed 64-bit numbers. -/
  reason : ∀ e, build source = .error (.compile e) →
    ∃ n : Nat, 65537 ≤ n ∧ n ≤ source.count '('.toUInt8 ∧ e = .tooManyProcedures ((n : Int) - 1) ∧
      (source.length < 2 ^ 63 → e.message = "too many procedures: " ++ Decimal.text n)

/-- **What can be built**: of every source, building says whether its brackets are nested and its
procedures have numbers that fit, and no number is cut down to its field. -/
theorem build_judges (source : List UInt8) : Judged source := by
  by_cases nested : Bracket.Nested (Bracket.word source)
  · obtain ⟨p, read, wellFormed, length, perm⟩ := Program.exists_parse_of_nested nested
    have built := build_of_parse read
    rcases wellFormed.compile_cases perm with ⟨few, code, compiled⟩ |
      ⟨many, n, large, small, compiled⟩
    · rw [compiled] at built
      have accepted : build source = .ok code := built
      have units : code.procedures.size = source.count '('.toUInt8 :=
        (Program.emitted_of_compile compiled).count.trans length
      constructor <;> simp [accepted, nested, few, units]
    · rw [compiled] at built
      have refused : build source = .error (.compile (.tooManyProcedures ((n : Int) - 1))) := built
      constructor <;> simp only [refused]
      · simp [many]
      · simp
      · simp [nested]
      · simp [nested, many]
      · rintro e ⟨⟩
        exact ⟨n, large, small, rfl, message_tooManyProcedures small⟩
  · cases read : Program.parse source with
    | ok p => exact absurd (Program.nested_of_parse read) nested
    | error e =>
      have unmatched : build source = .error (.parse e) := by rw [build, buildFor, read]
      constructor <;> simp [unmatched, nested]

/-- So many empty procedures. -/
def Source.empties (n : Nat) : List UInt8 :=
  (List.replicate n ['('.toUInt8, ')'.toUInt8]).flatten

namespace Source

theorem empties_succ (n : Nat) : empties (n + 1) = '('.toUInt8 :: ')'.toUInt8 :: empties n := by
  rw [empties, List.replicate_succ, List.flatten_cons]
  rfl

/-- Empty procedures side by side are nested. -/
theorem nested_empties (n : Nat) : Bracket.Nested (Bracket.word (empties n)) := by
  induction n with
  | zero => exact .nil
  | succ n ih =>
    rw [empties_succ]
    exact .pair .procedure .nil ih

/-- So many empty procedures have so many opening brackets. -/
theorem count_empties (n : Nat) : (empties n).count '('.toUInt8 = n := by
  induction n with
  | zero => rfl
  | succ n ih => rw [empties_succ, List.count_cons_self, List.count_cons_of_ne (by decide), ih]

theorem length_empties (n : Nat) : (empties n).length = 2 * n := by
  induction n with
  | zero => rfl
  | succ n ih =>
    rw [empties_succ, List.length_cons, List.length_cons, ih]
    omega

end Source

/-- As many procedures as there are numbers can be built, and one more can not. -/
theorem build_judges_of_empties :
    (∃ code, build (Source.empties 65536) = .ok code ∧ code.procedures.size = 65536) ∧
      ∃ e, build (Source.empties 65537) = .error (.compile e) ∧
        e.message = "too many procedures: 65537" := by
  constructor
  · obtain ⟨code, built⟩ := (build_judges (Source.empties 65536)).accepted.2
      ⟨Source.nested_empties _, (Source.count_empties _).le⟩
    exact ⟨code, built, ((build_judges _).units code built).trans (Source.count_empties _)⟩
  · obtain ⟨e, refused⟩ := (build_judges (Source.empties 65537)).refused.2
      ⟨Source.nested_empties _, by rw [Source.count_empties]; omega⟩
    obtain ⟨n, large, small, -, message⟩ := (build_judges _).reason e refused
    rw [Source.count_empties] at small
    obtain rfl : n = 65537 := by omega
    refine ⟨e, refused, (message ?_).trans (by decide)⟩
    rw [Source.length_empties]
    omega

end TapeLang
