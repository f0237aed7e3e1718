/-
# What a listing tells

The listing of code has one line for each instruction, with the number of bytes before it, its name
and its operand. A word of a line holds neither a blank nor the end of a line, so a line can be cut
into its words again and a text into its lines; names and decimals tell which opcode and which
operand they are. So a listing tells the bytes it lists: `Instruction.listing_injective`. In the
listing of a program the lines that name the units are known by having no blank in them, so it tells
all units: `Bytecode.eq_of_list`.

Positions are signed words of 64 bits, and code is never so long that one of them does not fit.
-/
import TapeLang.Proofs.Fields
import TapeLang.Proofs.Layout

namespace TapeLang

/-! ## Words and lines -/

namespace Listing

/-- Whether a text is a word: it holds neither what ends words and lines, nor the letter with which
errors begin. -/
def isWord (text : String) : Bool :=
  text.toList.all fun c => c != ' ' && c != '\n' && c != 'E'

/-- The text of lines, each of which is ended. -/
def unlines (lines : List String) : String :=
  String.join (lines.map (· ++ "\n"))

variable {text : String} {lines lines' : List String}

@[simp] theorem isWord_append (a b : String) : isWord (a ++ b) = (isWord a && isWord b) := by
  rw [isWord, String.toList_append, List.all_append]
  rfl

@[simp] theorem isWord_repr (n : Nat) : isWord n.repr = true := by
  refine List.all_eq_true.2 fun c member => ?_
  rw [Nat.toList_repr] at member
  have digit := Nat.isDigit_of_mem_toDigits (by omega) (by omega) member
  simp only [Bool.and_eq_true, bne_iff_ne]
  refine ⟨⟨?_, ?_⟩, ?_⟩ <;>
  · rintro rfl
    cases digit

@[simp] theorem isWord_padded (width n : Nat) : isWord (Decimal.padded width n) = true := by
  have zeros (count : Nat) : isWord (String.ofList (List.replicate count '0')) = true := by
    rw [isWord, String.toList_ofList, List.all_replicate]
    split <;> rfl
  have sign : ¬ ((n : Int) < 0) := by omega
  rw [Decimal.padded, if_neg sign, isWord_append, isWord_append, zeros, isWord_repr]
  rfl

@[simp] theorem isWord_paint (colour : Colour) (on : Bool) (text : String) :
    isWord (colour.paint on text) = isWord text := by
  have select (number : Nat) : isWord (Colour.select number) = true := by
    rw [Colour.select, isWord_append, isWord_append, isWord_repr]
    decide
  rw [Colour.paint]
  split
  · rw [Colour.reset, isWord_append, isWord_append, select, select, Bool.true_and, Bool.and_true]
  · rfl

@[simp] theorem isWord_name (op : Opcode) : isWord op.name = true := by
  cases op <;> decide

/-- A word has only characters of words. -/
theorem not_mem_of_isWord (word : isWord text = true) :
    ' ' ∉ text.toList ∧ '\n' ∉ text.toList ∧ 'E' ∉ text.toList := by
  have each := List.all_eq_true.1 word
  refine ⟨fun h => ?_, fun h => ?_, fun h => ?_⟩ <;> cases each _ h

theorem unlines_cons (line : String) (lines : List String) :
    unlines (line :: lines) = line ++ "\n" ++ unlines lines :=
  String.join_cons

theorem unlines_append (lines lines' : List String) :
    unlines (lines ++ lines') = unlines lines ++ unlines lines' := by
  induction lines with
  | nil => simp [unlines]
  | cons line lines ih =>
    rw [List.cons_append, unlines_cons, ih, unlines_cons, ← String.append_assoc]

/-- Lines that are ended stand between line ends, with nothing behind the last one. -/
theorem unlines_eq_intercalate (lines : List String) :
    unlines lines = "\n".intercalate (lines ++ [""]) := by
  induction lines with
  | nil => rfl
  | cons line lines ih =>
    rw [unlines_cons, ih, List.cons_append, String.intercalate_cons_of_ne_nil (by simp)]

/-- Texts between separators are told by the text they make if they hold no separator. -/
theorem intercalate_inj {separator : String} {z : Char} (single : separator.toList = [z])
    {texts texts' : List String} (free : ∀ t ∈ texts, z ∉ t.toList)
    (free' : ∀ t ∈ texts', z ∉ t.toList) (given : texts ≠ []) (given' : texts' ≠ [])
    (same : separator.intercalate texts = separator.intercalate texts') : texts = texts' := by
  have pieces {texts : List String} (free : ∀ t ∈ texts, z ∉ t.toList) (given : texts ≠ []) :
      (separator.intercalate texts).toList.splitOn z = texts.map String.toList := by
    rw [String.toList_intercalate, single,
      List.splitOn_intercalate z (by simpa using free) (by simpa using given)]
  apply List.map_injective_iff.2 fun _ _ => String.toList_injective
  rw [← pieces free given, same, pieces free' given']

/-- Lines are told by their text. -/
theorem unlines_inj (free : ∀ line ∈ lines, '\n' ∉ line.toList)
    (free' : ∀ line ∈ lines', '\n' ∉ line.toList) (same : unlines lines = unlines lines') :
    lines = lines' := by
  have ended {lines : List String} (free : ∀ line ∈ lines, '\n' ∉ line.toList) :
      ∀ line ∈ lines ++ [""], '\n' ∉ line.toList :=
    List.forall_mem_append.2 ⟨free, by simp⟩
  rw [unlines_eq_intercalate, unlines_eq_intercalate] at same
  exact List.append_cancel_right
    (intercalate_inj (z := '\n') rfl (ended free) (ended free') (by simp) (by simp) same)

/-- What holds of the separator and of the characters of texts, holds of all characters between
them. -/
theorem forall_mem_intercalate {p : Char → Prop} {separator : String} {z : Char}
    (single : separator.toList = [z]) {texts : List String} (between : p z)
    (each : ∀ t ∈ texts, ∀ c ∈ t.toList, p c) :
    ∀ c ∈ (separator.intercalate texts).toList, p c := by
  induction texts with
  | nil => simp
  | cons t texts ih =>
    have own := each t List.mem_cons_self
    have others := ih fun u member => each u (List.mem_cons_of_mem _ member)
    cases texts with
    | nil => simpa using own
    | cons u texts =>
      rw [String.intercalate_cons_cons, String.toList_append, String.toList_append, single]
      exact List.forall_mem_append.2 ⟨List.forall_mem_append.2 ⟨own, by simpa using between⟩,
        others⟩

end Listing

namespace Opcode

/-- The opcode with a name. -/
def ofName? (name : String) : Option Opcode :=
  ((List.range 21).filterMap fun n => ofByte? n.toUInt8).find? fun op => op.name == name

theorem ofName?_name (op : Opcode) : ofName? op.name = some op := by
  cases op <;> decide

theorem name_injective : Function.Injective name := by
  intro a b same
  rw [← Option.some.injEq, ← ofName?_name a, same, ofName?_name]

end Opcode

/-! ## Lines of instructions -/

namespace Instruction

open Listing

/-- The operands are in the range of the widths of their fields. -/
def InRange (i : Instruction) : Prop :=
  List.Forall₂ (fun (width : Nat) (operand : Int) => 0 ≤ operand ∧ operand < 256 ^ width)
    i.opcode.widths i.operands

instance (i : Instruction) : Decidable i.InRange :=
  inferInstanceAs (Decidable (List.Forall₂ _ _ _))

/-- The words of an instruction that stands at an offset: the offset, the name and the operand. -/
def words (colour : Bool) (offset : Nat) (i : Instruction) : List String :=
  Colour.yellow.paint colour (Decimal.padded 4 offset) :: i.opcode.name ::
    i.operands.map Decimal.text

/-- The line of an instruction that stands at an offset. -/
def line (colour : Bool) (offset : Nat) (i : Instruction) : String :=
  " ".intercalate (i.words colour offset)

/-- The lines of instructions one after another. -/
def listing (colour : Bool) (base : Nat) (is : List Instruction) : List String :=
  (places base is).map fun x => x.2.line colour x.1

variable {colour : Bool} {base offset offset' : Nat} {i j : Instruction} {is js : List Instruction}

/-- An instruction stands at the sum of the sizes before it. -/
theorem getElem?_places (base k : Nat) (is : List Instruction) :
    (places base is)[k]? = is[k]?.map fun i => (base + span (is.take k), i) := by
  induction is generalizing base k with
  | nil => simp
  | cons i is ih =>
    cases k with
    | zero => rfl
    | succ k => simp [ih, Nat.add_assoc]

theorem getElem?_listing (colour : Bool) (base k : Nat) (is : List Instruction) :
    (listing colour base is)[k]? = is[k]?.map fun i => i.line colour (base + span (is.take k)) := by
  rw [listing, List.getElem?_map, getElem?_places, Option.map_map]
  rfl

theorem listing_cons :
    listing colour base (i :: is) = i.line colour base :: listing colour (base + i.size) is := rfl

/-- The operand of an instruction is a natural number. -/
theorem exists_operands (i : Instruction) :
    ∃ numbers : List Nat, i.operands = numbers.map Int.ofNat := by
  cases i with
  | newTape n | constant n | jumpZero n | loop n | procedure n => exact ⟨[n.toNat], rfl⟩
  | _ => exact ⟨[], rfl⟩

theorem isWord_of_mem_words {word : String} (member : word ∈ i.words colour offset) :
    isWord word = true := by
  obtain ⟨numbers, operands⟩ := exists_operands i
  rw [words, operands, List.map_map, List.mem_cons, List.mem_cons] at member
  rcases member with rfl | rfl | operand
  · rw [isWord_paint, isWord_padded]
  · exact isWord_name _
  · obtain ⟨n, -, rfl⟩ := List.mem_map.1 operand
    exact isWord_repr n

/-- A line holds neither the end of a line nor the beginning of an error. -/
theorem not_mem_line (colour : Bool) (offset : Nat) (i : Instruction) :
    ∀ c ∈ (i.line colour offset).toList, c ≠ '\n' ∧ c ≠ 'E' := by
  refine forall_mem_intercalate (z := ' ') rfl (by decide) fun word member c inside => ?_
  have own := not_mem_of_isWord (isWord_of_mem_words member)
  exact ⟨fun h => own.2.1 (h ▸ inside), fun h => own.2.2 (h ▸ inside)⟩

/-- A line has a blank, between the offset and the name. -/
theorem blank_mem_line (colour : Bool) (offset : Nat) (i : Instruction) :
    ' ' ∈ (i.line colour offset).toList := by
  rw [line, words, String.intercalate_cons_cons, String.toList_append, String.toList_append]
  simp

/-- An instruction is known by its opcode and its operands. -/
theorem eq_of_operands (opcodes : i.opcode = j.opcode) (operands : i.operands = j.operands) :
    i = j := by
  by_cases bare : j.opcode.widths = []
  · exact eq_of_opcode bare opcodes
  · cases j with
    | newTape n | constant n | jumpZero n | loop n | procedure n =>
      cases i <;> cases opcodes
      cases UInt32.toNat_inj.1 (Int.ofNat.inj (List.cons.inj operands).1)
      rfl
    | _ => exact absurd rfl bare

/-- Natural numbers are known by their decimals. -/
theorem text_injective : Function.Injective fun n : Nat => Decimal.text (Int.ofNat n) :=
  fun _ _ same => Nat.repr_inj.1 same

/-- **A line tells the instruction.** -/
theorem eq_of_line (same : i.line colour offset = j.line colour offset') : i = j := by
  have free {i : Instruction} {offset : Nat} : ∀ word ∈ i.words colour offset, ' ' ∉ word.toList :=
    fun word member => (not_mem_of_isWord (isWord_of_mem_words member)).1
  have words : i.words colour offset = j.words colour offset' :=
    intercalate_inj (z := ' ') rfl free free (by simp [Instruction.words])
      (by simp [Instruction.words]) same
  obtain ⟨-, rest⟩ := List.cons.inj words
  obtain ⟨names, texts⟩ := List.cons.inj rest
  obtain ⟨numbers, ofI⟩ := exists_operands i
  obtain ⟨numbers', ofJ⟩ := exists_operands j
  refine eq_of_operands (Opcode.name_injective names) ?_
  rw [ofI, ofJ, List.map_map, List.map_map] at texts
  rw [ofI, ofJ, List.map_injective_iff.2 text_injective texts]

/-- **The lines of instructions tell these.** -/
theorem listing_injective (colour : Bool) (base : Nat) :
    Function.Injective (listing colour base) := by
  intro is js same
  apply List.ext_getElem?
  intro k
  have line := congrArg (fun lines => lines[k]?) same
  simp only [getElem?_listing] at line
  cases found : is[k]? with
  | none =>
    rw [found, Option.map_none] at line
    exact (Option.map_eq_none_iff.1 line.symm).symm
  | some i =>
    rw [found, Option.map_some] at line
    obtain ⟨j, there, same⟩ := Option.map_eq_some_iff.1 line.symm
    rw [there, eq_of_line same]

/-! ## Listing code -/

theorem holdsNumber_of_mem_widths {op : Opcode} {width : Nat} (member : width ∈ op.widths) :
    Operands.holdsNumber width = true := by
  cases op <;> simp_all [Opcode.widths, Operands.holdsNumber]

/-- The operand of an instruction is read from behind its opcode, and its size from the widths. -/
theorem read_of_bytes {unit : Code} {done todo : List Instruction} (range : i.InRange)
    (bytes : unit.toList = (done ++ i :: todo).flatMap encode) :
    ∃ numbers, numbers.map Int.ofNat = i.operands ∧
      Operands.read i.opcode.definition.widths unit (span done + 1) =
        .ok (numbers, (Operands.total i.opcode.widths : Int)) := by
  have split : unit = (done.flatMap encode ++ [i.opcode.toByte] ++
      (Operands.fields i.opcode.widths i.operands ++ todo.flatMap encode)).toArray := by
    apply Array.ext'
    simpa [encode] using bytes
  have position : span done + 1 = (done.flatMap encode ++ [i.opcode.toByte]).length := by
    rw [List.length_append, length_flatMap_encode, List.length_singleton]
  refine ⟨_, Operands.kept_of_inRange (fun width => holdsNumber_of_mem_widths) range, ?_⟩
  rw [split, position]
  exact Operands.read_fields _ _ _ _ (by cases i.opcode <;> decide)

/-- The text behind the offset of a line. -/
theorem line_definition (i : Instruction) :
    i.opcode.definition.line i.operands =
      " ".intercalate (i.opcode.name :: i.operands.map Decimal.text) := by
  cases i with
  | newTape n | constant n | jumpZero n | loop n | procedure n =>
    rw [operands, List.map_cons, String.intercalate_cons_cons, List.map_nil,
      String.intercalate_singleton]
    rfl
  | _ => exact String.intercalate_singleton.symm

/-- An instruction is listed in one line, and the listing goes on behind it. -/
theorem listFrom_step {unit : Code} {done todo : List Instruction} (colour : Bool) (count : Nat)
    (out : String) (range : i.InRange) (bytes : unit.toList = (done ++ i :: todo).flatMap encode)
    (small : span (done ++ [i]) < 0x8000000000000000) :
    InstructionSet.standard.listFrom colour unit (count + 1) out (span done) =
      InstructionSet.standard.listFrom colour unit count (out ++ i.line colour (span done) ++ "\n")
        (span (done ++ [i])) := by
  have forward : ¬ ((span done : Int) < 0) := by omega
  have here : unit[span done]? = some i.opcode.toByte := Code.getElem?_of_bytes bytes
  obtain ⟨numbers, operands, read⟩ := read_of_bytes range bytes
  have next : Word.wrap ((span done : Int) + 1 + (Operands.total i.opcode.widths : Int)) =
      (span (done ++ [i]) : Nat) := by
    have behind : span (done ++ [i]) = span done + (1 + Operands.total i.opcode.widths) := by
      simp [size]
    rw [behind] at small ⊢
    rw [Word.wrap_eq_self] <;> omega
  rw [InstructionSet.listFrom.eq_def, if_neg forward, Int.toNat_natCast, here]
  simp only [InstructionSet.standard_toByte, read, operands, next]
  rw [line_definition, line, words, String.intercalate_cons_cons]
  simp only [String.append_assoc]

/-- Instructions are listed from any of them on. -/
theorem listFrom_of_bytes {unit : Code} {todo : List Instruction} (colour : Bool)
    (done : List Instruction) (count : Nat) (out : String)
    (bytes : unit.toList = (done ++ todo).flatMap encode) (range : ∀ i ∈ todo, i.InRange)
    (small : span (done ++ todo) < 0x8000000000000000) (enough : todo.length ≤ count) :
    InstructionSet.standard.listFrom colour unit count out (span done) =
      .ok (out ++ unlines (listing colour (span done) todo)) := by
  -- The code is listed from the front, so the induction is on what is still to be listed.
  induction todo generalizing done count out with
  | nil =>
    have forward : ¬ ((span done : Int) < 0) := by omega
    have ended : unit[span done]? = none := by
      rw [Array.getElem?_eq_none_iff, ← Array.length_toList, bytes, length_flatMap_encode,
        List.append_nil]
    rw [InstructionSet.listFrom.eq_def, if_neg forward, Int.toNat_natCast, ended]
    simp [listing, unlines]
  | cons i todo ih =>
    obtain ⟨fewer, rfl⟩ : ∃ fewer, count = fewer + 1 := Nat.exists_eq_succ_of_ne_zero (by
      rw [List.length_cons] at enough
      omega)
    have behind : span (done ++ [i]) = span done + i.size := by simp
    have short : span (done ++ [i]) < 0x8000000000000000 := by
      rw [span_append, span_cons] at small
      omega
    rw [listFrom_step colour fewer out (range i List.mem_cons_self) bytes short,
      ih (done ++ [i]) fewer _ (by simpa using bytes)
        (fun j member => range j (List.mem_cons_of_mem _ member))
        (by simpa using small) (Nat.le_of_succ_le_succ enough),
      listing_cons, unlines_cons, behind]
    simp only [String.append_assoc]

/-- Lines that list instructions: there is one for each of them, in order, which gives the number of
bytes before the instruction, its name and its operand, and none of them holds an error. -/
structure Listed (colour : Bool) (is : List Instruction) (lines : List String) : Prop where
  each : ∀ k, lines[k]? = is[k]?.map (line colour (span (is.take k)))
  single : ∀ line ∈ lines, '\n' ∉ line.toList
  noError : ∀ line ∈ lines, ¬ "ERROR".toList <:+: line.toList

/-- The listing of instructions has a line for each of them. -/
theorem listed_listing (colour : Bool) (is : List Instruction) :
    Listed colour is (listing colour 0 is) := by
  have free : ∀ line ∈ listing colour 0 is, ∀ c ∈ line.toList, c ≠ '\n' ∧ c ≠ 'E' := by
    intro line member
    obtain ⟨⟨offset, i⟩, -, rfl⟩ := List.mem_map.1 member
    exact not_mem_line colour offset i
  refine ⟨fun k => ?_, fun line member inside => (free line member _ inside).1 rfl,
    fun line member error => ?_⟩
  · simpa using getElem?_listing colour 0 k is
  · have first : 'E' ∈ "ERROR".toList := List.mem_cons_self
    exact (free line member 'E' (error.subset first)).2 rfl

/-- Instructions with operands in their range, in code of which all positions are words. -/
structure Listable (is : List Instruction) : Prop where
  range : ∀ i ∈ is, i.InRange
  small : span is < 0x8000000000000000

theorem length_le_span (is : List Instruction) : is.length ≤ span is := by
  induction is with
  | nil => exact Nat.le_refl _
  | cons i is ih =>
    have := i.size_pos
    rw [List.length_cons, span_cons]
    omega

/-- The listing of instructions in their range. -/
theorem list_assemble (colour : Bool) (listable : Listable is) :
    InstructionSet.standard.list colour (InstructionSet.standard.assemble is.toArray) =
      .ok (unlines (listing colour 0 is)) := by
  have enough : is.length ≤ (InstructionSet.standard.assemble is.toArray).size := by
    rw [InstructionSet.size_assemble_standard, sizes_standard]
    exact length_le_span is
  have whole :=
    listFrom_of_bytes colour [] _ "" (toList_assemble_standard is.toArray) listable.range
      listable.small
    enough
  rw [String.empty_append] at whole
  exact whole

/-- Instructions as they are read back are in their range, and have the bytes they are read from. -/
theorem inRange_stored (i : Instruction) : i.stored.InRange := by
  cases i with
  | newTape n | constant n | jumpZero n | loop n =>
    have bound := n.toNat_lt
    exact .cons ⟨by omega, by omega⟩ .nil
  | procedure n =>
    have bound : (n % 0x10000).toNat < 256 ^ 2 := by
      rw [UInt32.toNat_mod]
      exact Nat.mod_lt _ (by decide)
    exact .cons ⟨by omega, by omega⟩ .nil
  | _ => exact .nil

theorem encode_stored (i : Instruction) : i.stored.encode = i.encode := by
  cases i with
  | procedure n =>
    have cut : (n % 0x10000).toNat % 256 ^ 2 = n.toNat % 256 ^ 2 := by
      rw [UInt32.toNat_mod]
      exact Nat.mod_mod _ _
    simp only [stored, encode, opcode, operands, Opcode.widths, field_word 2 rfl, cut]
  | _ => rfl

theorem assemble_map_stored (is : List Instruction) :
    InstructionSet.standard.assemble (is.map stored).toArray =
      InstructionSet.standard.assemble is.toArray := by
  apply Array.ext'
  rw [toList_assemble_standard, toList_assemble_standard, List.flatMap_map]
  exact congrArg (is.flatMap ·) (funext encode_stored)

end Instruction

/-! ## Listing programs -/

namespace Bytecode

open Instruction Listing

/-- All positions in the units are words. -/
structure Addressable (code : Bytecode) : Prop where
  main : code.main.size < 0x8000000000000000
  procedures : ∀ unit ∈ code.procedures, unit.size < 0x8000000000000000

/-- The bytecode whose units have the given instructions. -/
def ofUnits (main : List Instruction) (procedures : List (List Instruction)) : Bytecode where
  main := InstructionSet.standard.assemble main.toArray
  procedures := (procedures.map fun is => InstructionSet.standard.assemble is.toArray).toArray

/-- The line that names a unit. -/
def unitName (colour : Bool) : Option Nat → String
  | none => Colour.cyan.paint colour "main:"
  | some id => Colour.cyan.paint colour ("pb_" ++ id.repr ++ ":")

/-- The lines of the units of procedures, the first of which has the number `id`. -/
def procedureLines (colour : Bool) (id : Nat) : List (List Instruction) → List String
  | [] => []
  | is :: procedures =>
    unitName colour (some id) :: (listing colour 0 is ++ procedureLines colour (id + 1) procedures)

/-- The lines of a program. -/
def lines (colour : Bool) (main : List Instruction) (procedures : List (List Instruction)) :
    List String :=
  unitName colour none :: (listing colour 0 main ++ procedureLines colour 0 procedures)

variable {colour : Bool} {main main' : List Instruction}
  {procedures procedures' : List (List Instruction)}

/-- The listing of an assembled unit is the listing of its instructions. -/
theorem listUnit_assemble (colour : Bool) {is : List Instruction} (listable : Listable is) :
    InstructionSet.standard.listUnit colour (InstructionSet.standard.assemble is.toArray) =
      unlines (listing colour 0 is) := by
  rw [InstructionSet.listUnit, list_assemble colour listable]

/-- The listings of procedures come one after another, each behind its name. -/
theorem list_procedures (colour : Bool) (id : Nat) (out : String)
    (listable : ∀ is ∈ procedures, Listable is) :
    ((procedures.map fun is => InstructionSet.standard.assemble is.toArray).zipIdx id).foldl
      (fun out (code, id) => out ++ Colour.cyan.paint colour ("pb_" ++ id.repr ++ ":") ++ "\n" ++
        InstructionSet.standard.listUnit colour code) out =
      out ++ unlines (procedureLines colour id procedures) := by
  induction procedures generalizing id out with
  | nil => simp [procedureLines, unlines]
  | cons is procedures ih =>
    have own := listUnit_assemble colour (listable is List.mem_cons_self)
    have others : ∀ is ∈ procedures, Listable is :=
      fun is member => listable is (List.mem_cons_of_mem _ member)
    rw [List.map_cons, List.zipIdx_cons, List.foldl_cons, ih _ _ others]
    simp only [own, procedureLines, unitName, unlines_cons, unlines_append, String.append_assoc]

/-- The listing of a program is the text of its lines. -/
theorem list_ofUnits (colour : Bool) (listable : ∀ is ∈ main :: procedures, Listable is) :
    (ofUnits main procedures).list .standard colour = unlines (lines colour main procedures) := by
  have first := listUnit_assemble colour (listable main List.mem_cons_self)
  have others := list_procedures colour 0
    (Colour.cyan.paint colour "main:" ++ "\n" ++ unlines (listing colour 0 main))
    fun is member => listable is (List.mem_cons_of_mem _ member)
  rw [lines, unitName, unlines_cons, unlines_append, ← String.append_assoc, ← others, list, ofUnits,
    first]

theorem isWord_unitName (colour : Bool) (unit : Option Nat) :
    isWord (unitName colour unit) = true := by
  cases unit with
  | none =>
    rw [unitName, isWord_paint]
    decide
  | some id =>
    rw [unitName, isWord_paint, isWord_append, isWord_append, isWord_repr]
    decide

/-- Whether a line names a unit: it has no blank in it, unlike a line that lists an instruction. -/
def namesUnit (line : String) : Bool :=
  ' ' ∉ line.toList

theorem namesUnit_unitName (colour : Bool) (unit : Option Nat) :
    namesUnit (unitName colour unit) = true :=
  decide_eq_true (not_mem_of_isWord (isWord_unitName colour unit)).1

theorem not_namesUnit_of_mem_listing {is : List Instruction} {line : String}
    (member : line ∈ listing colour 0 is) : namesUnit line = false := by
  obtain ⟨⟨offset, i⟩, -, rfl⟩ := List.mem_map.1 member
  exact decide_eq_false fun absent => absent (blank_mem_line colour offset i)

/-- The lines of a program are cut into those of its units where units are named. -/
theorem splitOnP_procedureLines (id : Nat) :
    (listing colour 0 main ++ procedureLines colour id procedures).splitOnP namesUnit =
      (main :: procedures).map (listing colour 0) := by
  have own {is : List Instruction} : ∀ line ∈ listing colour 0 is, namesUnit line = false :=
    fun _ => not_namesUnit_of_mem_listing
  induction procedures generalizing id main with
  | nil => rw [procedureLines, List.append_nil, List.splitOnP_eq_singleton own, List.map_singleton]
  | cons is procedures ih =>
    rw [procedureLines, List.splitOnP_append_cons_of_forall_mem own _ (namesUnit_unitName ..), ih]
    rfl

/-- The names of units divide a listing into the listings of its units. -/
theorem splitOnP_lines :
    (lines colour main procedures).splitOnP namesUnit =
      [] :: (main :: procedures).map (listing colour 0) := by
  rw [lines, List.splitOnP_cons_eq_if_modifyHead, if_pos (namesUnit_unitName colour none),
    splitOnP_procedureLines]

theorem single_of_mem_procedureLines (id : Nat) :
    ∀ line ∈ procedureLines colour id procedures, '\n' ∉ line.toList := by
  induction procedures generalizing id with
  | nil => exact nofun
  | cons is procedures ih =>
    have name := (not_mem_of_isWord (isWord_unitName colour (some id))).2.1
    exact List.forall_mem_cons.2
      ⟨name, List.forall_mem_append.2 ⟨(listed_listing colour is).single, ih _⟩⟩

theorem single_of_mem_lines : ∀ line ∈ lines colour main procedures, '\n' ∉ line.toList := by
  have name := (not_mem_of_isWord (isWord_unitName colour none)).2.1
  exact List.forall_mem_cons.2 ⟨name, List.forall_mem_append.2
    ⟨(listed_listing colour main).single, single_of_mem_procedureLines 0⟩⟩

/-- **The listing of a program tells its units.** -/
theorem eq_of_list (listable : ∀ is ∈ main :: procedures, Listable is)
    (listable' : ∀ is ∈ main' :: procedures', Listable is)
    (same : (ofUnits main procedures).list .standard colour =
      (ofUnits main' procedures').list .standard colour) :
    ofUnits main procedures = ofUnits main' procedures' := by
  rw [list_ofUnits colour listable, list_ofUnits colour listable'] at same
  have text := unlines_inj single_of_mem_lines single_of_mem_lines same
  have units := congrArg (List.splitOnP namesUnit) text
  rw [splitOnP_lines, splitOnP_lines] at units
  have each := List.map_injective_iff.2 (listing_injective colour 0) (List.cons.inj units).2
  obtain ⟨rfl, rfl⟩ := List.cons.inj each
  rfl

end Bytecode

namespace Program

open Instruction

/-- The units of a compiled program are those of instructions in their range. -/
theorem exists_units_of_compile {p : Program} {code : Bytecode} (compiled : p.compile = .ok code)
    (addressable : code.Addressable) :
    ∃ main procedures, code = Bytecode.ofUnits main procedures ∧
      ∀ is ∈ main :: procedures, Listable is := by
  obtain rfl := compile_eq_ok compiled
  have listable {is : List Instruction}
      (short : (InstructionSet.standard.assemble is.toArray).size < 0x8000000000000000) :
      Listable (is.map stored) := by
    rw [InstructionSet.size_assemble_standard, sizes_standard] at short
    exact ⟨List.forall_mem_map.2 fun i _ => inRange_stored i, by rwa [span_map_stored]⟩
  refine ⟨(p.mainCode .standard).toList.map stored,
    p.procedures.map fun q => (procedureCode .standard q).toList.map stored, ?_, ?_⟩
  · simp [Bytecode.ofUnits, assemble_map_stored]
  · refine List.forall_mem_cons.2 ⟨listable (by simpa using addressable.main), ?_⟩
    refine List.forall_mem_map.2 fun q member => listable (addressable.procedures _ ?_)
    simpa using ⟨q, member, rfl⟩

end Program

open Instruction InstructionSet

/-- **Listings are faithful and tell what they list.** Instructions in their range are listed one a
line, in order, each with the number of bytes before it; two such listings are the same only for the
same bytes; and two compiled programs have the same listing only if they have the same bytecode. -/
theorem listings_faithful (colour : Bool) :
    (∀ is : List Instruction, Listable is → ∃ lines, Listed colour is lines ∧
      standard.list colour (standard.assemble is.toArray) = .ok (Listing.unlines lines)) ∧
    (∀ is js : List Instruction, Listable is → Listable js →
      standard.list colour (standard.assemble is.toArray) =
        standard.list colour (standard.assemble js.toArray) →
      standard.assemble is.toArray = standard.assemble js.toArray) ∧
    ∀ (p q : Program) (b c : Bytecode), p.compile = .ok b → q.compile = .ok c → b.Addressable →
      c.Addressable → b.list standard colour = c.list standard colour → b = c := by
  refine ⟨fun is listable => ?_, fun is js listable listable' same => ?_,
    fun p q b c compiled compiled' short short' same => ?_⟩
  · exact ⟨_, listed_listing colour is, list_assemble colour listable⟩
  · rw [list_assemble colour listable, list_assemble colour listable'] at same
    have lines :=
      Listing.unlines_inj (listed_listing colour is).single (listed_listing colour js).single
      (Except.ok.inj same)
    rw [listing_injective colour 0 lines]
  · obtain ⟨main, procedures, rfl, listable⟩ := p.exists_units_of_compile compiled short
    obtain ⟨main', procedures', rfl, listable'⟩ := q.exists_units_of_compile compiled' short'
    exact Bytecode.eq_of_list listable listable' same

/-- Instructions of all three sizes; code that comes from different nodes; and programs that are
written in different ways. -/
theorem listings_faithful_of_sizes :
    let is : List Instruction := [.loadPointer, .constant 65534, .procedure 258, .jumpZero 70000]
    let js : List Instruction := Node.instructions 0 [.sequence [.write], .write]
    let ks : List Instruction := Node.instructions 0 [.write, .write]
    let p : Program := {
      main := [.sequence [.loop [.write]], .register 0, .call],
      procedures := [⟨0, [.read]⟩], calls := 1 }
    let q : Program := {
      main := [.loop [.sequence [.write]], .register 0, .call],
      procedures := [⟨0, [.read]⟩], calls := 1 }
    (∃ lines, Listed false is lines ∧
      standard.list false (standard.assemble is.toArray) = .ok (Listing.unlines lines)) ∧
    standard.assemble js.toArray = standard.assemble ks.toArray ∧
    ∃ b c, p.compile = .ok b ∧ q.compile = .ok c ∧ b = c := by
  intro is js ks p q
  obtain ⟨listed, bytes, programs⟩ := listings_faithful false
  refine ⟨listed is ⟨by decide, by decide⟩,
    bytes js ks ⟨by decide, by decide⟩ ⟨by decide, by decide⟩ rfl, ?_⟩
  exact ⟨_, _, rfl, rfl,
    programs p q _ _ rfl rfl ⟨by decide, by decide⟩ ⟨by decide, by decide⟩ rfl⟩

example : standard.list false (standard.assemble #[.loadPointer, .constant 2, .jumpZero 65535]) =
    .ok "0000 OpLoadPointer\n0001 OpConstant 2\n0006 OpJumpZero 65535\n" := by
  rfl

end TapeLang
