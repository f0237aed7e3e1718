/-
# The layout of emitted code

A unit of code is read from its first byte on: `Code.decode?` gives its instructions with the places
at which they stand, if the bytes come out even. Emitted code is read as what was emitted. The loops
in it are known by where they begin and end: the test of a loop leaves it for the place behind its
last instruction, which goes back to where the loop begins, and there are no other jumps. Two loops
lie one inside the other or apart. What makes the tape and the table, and what leaves a unit, stands
at the ends of the units only: `Program.laidOut_of_compile`.

The places of the loops are carried through the code of nodes, `Instruction.Laid`.
-/
import TapeLang.Proofs.Recall

namespace TapeLang

/-! ## Instructions and their places -/

namespace Instruction

/-- Instructions with the places at which they stand, the first of them at `base`. -/
def places (base : Nat) : List Instruction → List (Nat × Instruction)
  | [] => []
  | i :: is => (base, i) :: places (base + i.size) is

variable {base o : Nat} {i j : Instruction} {a b is : List Instruction}

@[simp] theorem places_nil : places base [] = [] := rfl

@[simp] theorem places_cons : places base (i :: is) = (base, i) :: places (base + i.size) is := rfl

@[simp] theorem places_append (base : Nat) (a b : List Instruction) :
    places base (a ++ b) = places base a ++ places (base + span a) b := by
  induction a generalizing base with
  | nil => rfl
  | cons i a ih =>
    rw [List.cons_append, places_cons, ih, span_cons, ← Nat.add_assoc]
    rfl

theorem size_pos (i : Instruction) : 0 < i.size := by
  rw [size]
  omega

/-- An instruction that has a place is one of the list. -/
theorem mem_of_mem_places (h : (o, i) ∈ places base is) : i ∈ is := by
  induction is generalizing base with
  | nil => cases h
  | cons j is ih =>
    rcases List.mem_cons.1 h with same | later
    · cases same
      exact List.mem_cons_self
    · exact List.mem_cons_of_mem _ (ih later)

/-- An instruction stands between the ends of the code. -/
theorem range_of_mem_places (h : (o, i) ∈ places base is) :
    base ≤ o ∧ o + i.size ≤ base + span is := by
  induction is generalizing base with
  | nil => cases h
  | cons j is ih =>
    rw [span_cons]
    rcases List.mem_cons.1 h with same | later
    · cases same
      omega
    · have := ih later
      omega

/-- One instruction only stands at a place. -/
theorem eq_of_mem_places (h : (o, i) ∈ places base is) (h' : (o, j) ∈ places base is) : i = j := by
  induction is generalizing base with
  | nil => cases h
  | cons k is ih =>
    have positive := size_pos k
    rcases List.mem_cons.1 h with same | later <;> rcases List.mem_cons.1 h' with same' | later'
    · cases same
      cases same'
      rfl
    · cases same
      have := range_of_mem_places later'
      omega
    · cases same'
      have := range_of_mem_places later
      omega
    · exact ih later later'

/-- Behind an instruction another one stands, or the code ends. -/
theorem next_of_mem_places (h : (o, i) ∈ places base is) :
    o + i.size = base + span is ∨ ∃ j, (o + i.size, j) ∈ places base is := by
  induction is generalizing base with
  | nil => cases h
  | cons k is ih =>
    rcases List.mem_cons.1 h with same | later
    · cases same
      cases is with
      | nil => exact .inl (by simp)
      | cons j is => exact .inr ⟨j, by simp⟩
    · rcases ih later with ends | ⟨j, next⟩
      · exact .inl (by rw [ends, span_cons, Nat.add_assoc])
      · exact .inr ⟨j, List.mem_cons_of_mem _ next⟩

/-- Reading instructions back keeps their places. -/
theorem places_map_stored (base : Nat) (is : List Instruction) :
    places base (is.map stored) = (places base is).map fun x => (x.1, x.2.stored) := by
  induction is generalizing base with
  | nil => rfl
  | cons i is ih =>
    rw [List.map_cons, places_cons, size_stored, ih]
    rfl

/-- What is read back stands where it was, but for the numbers of procedures. -/
theorem mem_places_stored (other : ∀ id, j ≠ .procedure id) :
    (o, j) ∈ places base (is.map stored) ↔ (o, j) ∈ places base is := by
  have same (i : Instruction) : i.stored = j ↔ i = j := by
    constructor
    · rintro rfl
      cases i <;> first | rfl | exact absurd rfl (other _)
    · rintro rfl
      cases i <;> first | rfl | exact absurd rfl (other _)
  simp [places_map_stored, same]

end Instruction

/-! ## Reading a unit -/

namespace Code

/-- The instructions of a unit from a position on, with their places. There is no answer if a byte
has no instruction, or if an instruction does not end inside the unit. -/
def decodeFrom (unit : Code) (position : Nat) : Option (List (Nat × Instruction)) :=
  if inside : position < unit.size then do
    let op ← Opcode.ofByte? unit[position]
    let i ← Instruction.withOperandAt? unit (position + 1) op
    let rest ← decodeFrom unit (position + i.size)
    return (position, i) :: rest
  else if position = unit.size then some [] else none
termination_by unit.size - position
decreasing_by
  have := i.size_pos
  omega

/-- The instructions of a unit, with their places. -/
def decode? (unit : Code) : Option (List (Nat × Instruction)) :=
  unit.decodeFrom 0

/-- The bytes of instructions are read as these, but for the numbers of procedures. -/
theorem decode?_of_bytes {unit : Code} {is : List Instruction}
    (bytes : unit.toList = is.flatMap Instruction.encode) :
    unit.decode? = some (Instruction.places 0 (is.map Instruction.stored)) := by
  -- The instructions are read from the front, so the induction is on what is still to be read.
  have further (done todo : List Instruction)
      (bytes : unit.toList = (done ++ todo).flatMap Instruction.encode) :
      unit.decodeFrom (Instruction.span done) =
        some (Instruction.places (Instruction.span done) (todo.map Instruction.stored)) := by
    have size : unit.size = Instruction.span done + Instruction.span todo := by
      rw [← Array.length_toList, bytes, Instruction.length_flatMap_encode, Instruction.span_append]
    induction todo generalizing done with
    | nil =>
      rw [decodeFrom, dif_neg (by simp [size]), if_pos (by simp [size])]
      rfl
    | cons i todo ih =>
      have positive := i.size_pos
      have inside : Instruction.span done < unit.size := by
        rw [size, Instruction.span_cons]
        omega
      have first : unit[Instruction.span done] = i.opcode.toByte :=
        Option.some.inj ((Array.getElem?_eq_getElem inside).symm.trans (getElem?_of_bytes bytes))
      have operand : Instruction.withOperandAt? unit (Instruction.span done + 1) i.opcode =
          some i.stored := by
        have split : unit = (done.flatMap Instruction.encode ++ i.encode ++
            todo.flatMap Instruction.encode).toArray := by
          apply Array.ext'
          simpa using bytes
        rw [split, ← Instruction.length_flatMap_encode done]
        exact Instruction.withOperandAt?_encode _ _ i
      have later := ih (done ++ [i]) (by simpa using bytes) (by simp [size, Nat.add_assoc])
      rw [decodeFrom, dif_pos inside, first, Opcode.ofByte?_toByte, Option.bind_eq_bind,
        Option.bind_some, operand, Option.bind_eq_bind, Option.bind_some, Instruction.size_stored]
      rw [Instruction.span_append, Instruction.span_cons, Instruction.span_nil,
        Nat.add_zero] at later
      rw [later, List.map_cons, Instruction.places_cons, Instruction.size_stored]
      rfl
  exact further [] is bytes

end Code

/-! ## Loops -/

/-- Of the instructions at these places, those from `start` up to `stop` are a loop: a test, which
leaves it for `stop`, and a last instruction in front of `stop`, which goes back to `start`. -/
structure LoopAt (places : List (Nat × Instruction)) (start stop : Nat) : Prop where
  entry : (start, .loadPointer) ∈ places
  test : ∃ target, (start + 2, .jumpZero target) ∈ places ∧ target.toNat = stop
  back : ∃ last distance, (last, .loop distance) ∈ places ∧
    last + 5 = stop ∧ start + distance.toNat = last

/-- Two stretches lie one inside the other or apart. -/
def NestedOrApart (r s : Nat × Nat) : Prop :=
  r.2 ≤ s.1 ∨ s.2 ≤ r.1 ∨ (r.1 ≤ s.1 ∧ s.2 ≤ r.2) ∨ (s.1 ≤ r.1 ∧ r.2 ≤ s.2)

/-- A loop at a place is one among more instructions. -/
theorem LoopAt.mono {places places' : List (Nat × Instruction)} {start stop : Nat}
    (h : LoopAt places start stop) (more : places ⊆ places') : LoopAt places' start stop := by
  obtain ⟨target, test, leaves⟩ := h.test
  obtain ⟨last, distance, back, ends, returns⟩ := h.back
  exact ⟨more h.entry, ⟨target, more test, leaves⟩, last, distance, more back, ends, returns⟩

namespace Instruction

/-- An instruction at a place that, if it is a jump, belongs to one of the loops. -/
def Belongs (loops : List (Nat × Nat)) (o : Nat) : Instruction → Prop
  | jumpZero target => ∃ start, start + 2 = o ∧ (start, target.toNat) ∈ loops
  | loop distance => ∃ start, start + distance.toNat = o ∧ (start, o + 5) ∈ loops
  | _ => True

/-- A jump that belongs to a loop belongs to it among more loops. -/
theorem Belongs.mono {loops loops' : List (Nat × Nat)} {o : Nat} {i : Instruction}
    (h : i.Belongs loops o) (more : loops ⊆ loops') : i.Belongs loops' o := by
  cases i with
  | jumpZero | loop =>
    obtain ⟨start, begins, here⟩ := h
    exact ⟨start, begins, more here⟩
  | _ => trivial

/-- Code in which the loops begin and end at the given places, and which has no other jumps. -/
structure Laid (base : Nat) (is : List Instruction) (loops : List (Nat × Nat)) : Prop where
  within : ∀ r ∈ loops, base ≤ r.1 ∧ r.1 ≤ r.2 ∧ r.2 ≤ base + span is
  loop : ∀ r ∈ loops, LoopAt (places base is) r.1 r.2
  belong : ∀ o i, (o, i) ∈ places base is → i.Belongs loops o
  nested : ∀ r ∈ loops, ∀ s ∈ loops, NestedOrApart r s

namespace Laid

variable {base : Nat} {a b is inner : List Instruction} {loops loops' : List (Nat × Nat)}

/-- Code without jumps has no loops. -/
theorem plain (h : ∀ i ∈ is, i.opcode ≠ .jumpZero ∧ i.opcode ≠ .loop) : Laid base is [] where
  within := nofun
  loop := nofun
  belong o i there := by
    have noJump := h i (mem_of_mem_places there)
    cases i with
    | jumpZero => exact absurd rfl noJump.1
    | loop => exact absurd rfl noJump.2
    | _ => trivial
  nested := nofun

/-- Code side by side has the loops of both parts. -/
theorem append (ha : Laid base a loops) (hb : Laid (base + span a) b loops') :
    Laid base (a ++ b) (loops ++ loops') := by
  have left := List.subset_append_left (places base a) (places (base + span a) b)
  have right := List.subset_append_right (places base a) (places (base + span a) b)
  constructor
  · intro r hr
    rw [span_append]
    rcases List.mem_append.1 hr with hr | hr
    · have := ha.within r hr
      omega
    · have := hb.within r hr
      omega
  · intro r hr
    rw [places_append]
    rcases List.mem_append.1 hr with hr | hr
    · exact (ha.loop r hr).mono left
    · exact (hb.loop r hr).mono right
  · intro o i there
    rw [places_append] at there
    rcases List.mem_append.1 there with there | there
    · exact (ha.belong o i there).mono (List.subset_append_left ..)
    · exact (hb.belong o i there).mono (List.subset_append_right ..)
  · intro r hr s hs
    -- The loops of the one part end before those of the other begin.
    rcases List.mem_append.1 hr with hr | hr <;> rcases List.mem_append.1 hs with hs | hs
    · exact ha.nested r hr s hs
    · have := ha.within r hr
      have := hb.within s hs
      exact .inl (by omega)
    · have := hb.within r hr
      have := ha.within s hs
      exact .inr (.inl (by omega))
    · exact hb.nested r hr s hs

/-- The test of a loop stands before its body, seven bytes long, and the jump back behind it. -/
theorem places_around (base : Nat) (inner : List Instruction) :
    places base (Node.around base inner) =
      (base, .loadPointer) :: (base + 1, .loadCell) ::
        (base + 2, .jumpZero (base + 7 + span inner + 5).toUInt32) ::
          (places (base + 7) inner ++
            [(base + 7 + span inner, .loop (7 + span inner).toUInt32)]) := by
  rw [Node.around, List.append_assoc, places_append, places_append]
  rfl

/-- Around code there is one loop more, which holds all the others. -/
theorem around (h : Laid (base + 7) inner loops) (fits : base + (7 + span inner + 5) < 2 ^ 32) :
    Laid base (Node.around base inner) ((base, base + 7 + span inner + 5) :: loops) := by
  have target : (base + 7 + span inner + 5).toUInt32.toNat = base + 7 + span inner + 5 := by
    simp only [Nat.toUInt32_eq, UInt32.toNat_ofNat']
    omega
  have distance : (7 + span inner).toUInt32.toNat = 7 + span inner := by
    simp only [Nat.toUInt32_eq, UInt32.toNat_ofNat']
    omega
  have holds : ∀ r ∈ loops, base ≤ r.1 ∧ r.2 ≤ base + 7 + span inner + 5 := by
    intro r hr
    have := h.within r hr
    omega
  constructor
  · rw [Node.span_around]
    refine List.forall_mem_cons.2 ⟨by omega, fun r hr => ?_⟩
    have := h.within r hr
    omega
  · rw [places_around]
    refine List.forall_mem_cons.2 ⟨⟨by simp, ⟨_, by simp, target⟩, base + 7 + span inner,
      (7 + span inner).toUInt32, by simp, rfl, ?_⟩, fun r hr => ?_⟩
    · rw [distance]
      exact (Nat.add_assoc ..).symm
    · refine (h.loop r hr).mono fun x hx => ?_
      simp [hx]
  · intro o i there
    simp only [places_around, List.mem_cons, List.mem_append, Prod.mk.injEq, List.not_mem_nil,
      or_false] at there
    rcases there with ⟨rfl, rfl⟩ | ⟨rfl, rfl⟩ | ⟨rfl, rfl⟩ | there | ⟨rfl, rfl⟩
    · trivial
    · trivial
    · refine ⟨base, rfl, ?_⟩
      rw [target]
      exact List.mem_cons_self
    · exact (h.belong o i there).mono (List.subset_cons_self ..)
    · refine ⟨base, ?_, List.mem_cons_self⟩
      rw [distance, Nat.add_assoc]
  · intro r hr s hs
    rcases List.mem_cons.1 hr with rfl | hr <;> rcases List.mem_cons.1 hs with rfl | hs
    · exact .inr (.inr (.inl ⟨Nat.le_refl _, Nat.le_refl _⟩))
    · exact .inr (.inr (.inl (holds s hs)))
    · exact .inr (.inr (.inr (holds r hr)))
    · exact h.nested r hr s hs

/-- Reading back changes nothing of this. -/
theorem map_stored (h : Laid base is loops) : Laid base (is.map stored) loops where
  within r hr := by
    rw [span_map_stored]
    exact h.within r hr
  loop r hr := by
    obtain ⟨entry, ⟨target, test, leaves⟩, last, distance, back, rest⟩ := h.loop r hr
    exact ⟨(mem_places_stored (by simp)).2 entry,
      ⟨target, (mem_places_stored (by simp)).2 test, leaves⟩,
      last, distance, (mem_places_stored (by simp)).2 back, rest⟩
  belong o i there := by
    rw [places_map_stored] at there
    obtain ⟨⟨o, i⟩, here, same⟩ := List.mem_map.1 there
    cases same
    have own := h.belong o i here
    cases i <;> exact own
  nested := h.nested

/-- The loops are those that can be seen. -/
theorem mem_iff (h : Laid base is loops) {start stop : Nat} :
    (start, stop) ∈ loops ↔ LoopAt (places base is) start stop := by
  constructor
  · exact h.loop _
  · intro there
    obtain ⟨target, test, rfl⟩ := there.test
    obtain ⟨start', begins, here⟩ := h.belong _ _ test
    obtain rfl : start' = start := by omega
    exact here

end Laid

/-- Whether an instruction may stand in a body: it makes neither the tape nor the table, and does
not leave its unit. -/
def isInner : Instruction → Bool
  | newTape _ | newTable | leave | returnValue => false
  | _ => true

end Instruction

namespace Node

/-- The code of a node other than a loop has no jumps. -/
theorem plain_leafCode (leaf : Node) :
    ∀ i ∈ leaf.leafCode.toList, i.opcode ≠ .jumpZero ∧ i.opcode ≠ .loop := by
  cases leaf with
  | move delta | amend delta =>
    simp only [leafCode, change, amount]
    split <;> simp [Instruction.opcode]
  | _ => simp [leafCode, handle, Instruction.opcode]

/-- **The loops of nodes are laid out in their code.** -/
theorem exists_laid_instructions (nodes : List Node) (base : Nat)
    (fits : base + Instruction.span (instructions base nodes) < 2 ^ 32) :
    ∃ loops, Instruction.Laid base (instructions base nodes) loops := by
  fun_induction dispatch nodes generalizing base with
  | case1 => exact ⟨[], .plain (by simp [instructions, codeAll])⟩
  | case2 body rest ihBody ih =>
    rw [instructions_sequence] at fits ⊢
    rw [Instruction.span_append] at fits
    obtain ⟨loops, inner⟩ := ihBody base (by omega)
    obtain ⟨loops', after⟩ := ih (base + Instruction.span (instructions base body)) (by omega)
    exact ⟨_, inner.append after⟩
  | case3 body rest ihBody ih =>
    rw [instructions_loop] at fits ⊢
    rw [Instruction.span_append, span_around] at fits
    obtain ⟨loops, inner⟩ := ihBody (base + 7) (by omega)
    obtain ⟨loops', after⟩ :=
      ih (base + (7 + Instruction.span (instructions (base + 7) body) + 5)) (by omega)
    refine ⟨_ ++ loops', (inner.around (by omega)).append ?_⟩
    rwa [span_around]
  | case4 leaf rest noSequence noLoop ih =>
    rw [instructions_leaf noSequence noLoop] at fits ⊢
    rw [Instruction.span_append] at fits
    obtain ⟨loops, after⟩ := ih (base + Instruction.span leaf.leafCode.toList) (by omega)
    exact ⟨_, (Instruction.Laid.plain (plain_leafCode leaf)).append after⟩

/-- The code of nodes holds nothing that stands at the ends of units only. -/
theorem all_isInner_instructions (nodes : List Node) (base : Nat) :
    (instructions base nodes).all Instruction.isInner = true := by
  fun_induction dispatch nodes generalizing base with
  | case1 => rfl
  | case2 body rest ihBody ih =>
    rw [instructions_sequence, List.all_append, ihBody, ih, Bool.and_true]
  | case3 body rest ihBody ih =>
    rw [instructions_loop, around, List.all_append, List.all_append, List.all_append, ihBody, ih]
    rfl
  | case4 leaf rest noSequence noLoop ih =>
    have own : leaf.leafCode.toList.all Instruction.isInner = true := by
      cases leaf with
      | move delta | amend delta =>
        simp only [leafCode, change, amount]
        split <;> rfl
      | _ => rfl
    rw [instructions_leaf noSequence noLoop, List.all_append, own, ih, Bool.and_true]

end Node

/-! ## Units -/

/-- A unit that is read to its end as instructions at these places, among which all jumps belong to
loops. A test leaves its loop for an instruction of the unit. The last instruction of a loop belongs
to one test only, which stands behind the two bytes at the beginning of the loop. -/
structure Code.LaidOut (unit : Code) (places : List (Nat × Instruction)) : Prop where
  decode : unit.decode? = some places
  test : ∀ o target, (o, .jumpZero target) ∈ places →
    (∃ start, start + 2 = o ∧ LoopAt places start target.toNat) ∧ target.toNat < unit.size ∧
      ∃ i, (target.toNat, i) ∈ places
  back : ∀ o distance, (o, .loop distance) ∈ places → ∃! start, LoopAt places start (o + 5)
  nested : ∀ start stop start' stop', LoopAt places start stop → LoopAt places start' stop' →
    NestedOrApart (start, stop) (start', stop')

/-- The main unit begins with the instruction that makes the tape, has one that makes the table
behind the eleven bytes of the start if the program needs a table, and ends with the instruction
that ends the run. -/
structure Program.MainEnds (p : Program) (unit : Code) (places : List (Nat × Instruction)) :
    Prop where
  tape : ∀ o size, (o, .newTape size) ∈ places ↔ o = 0 ∧ size = tapeSize
  table : ∀ o, (o, .newTable) ∈ places ↔ o = 11 ∧ p.dispatches = true
  result : ∀ o, (o, .returnValue) ∈ places ↔ o + 1 = unit.size
  noReturn : ∀ o, (o, .leave) ∉ places

/-- The unit of a procedure ends with the instruction that returns from it. -/
structure Code.ProcedureEnds (unit : Code) (places : List (Nat × Instruction)) : Prop where
  leave : ∀ o, (o, .leave) ∈ places ↔ o + 1 = unit.size
  noTape : ∀ o size, (o, .newTape size) ∉ places
  noTable : ∀ o, (o, .newTable) ∉ places
  noResult : ∀ o, (o, .returnValue) ∉ places

/-- All units of the bytecode are laid out, and end as they should. -/
structure Program.LaidOut (p : Program) (code : Bytecode) : Prop where
  main : ∃ places, code.main.LaidOut places ∧ p.MainEnds code.main places
  procedures : ∀ unit ∈ code.procedures, ∃ places, unit.LaidOut places ∧ unit.ProcedureEnds places

namespace Instruction

/-- A body and a last instruction are a unit that is laid out. -/
theorem Laid.laidOut {unit : Code} {body : List Instruction} {last : Instruction}
    {loops : List (Nat × Nat)} (laid : Laid 0 body loops)
    (bytes : unit.toList = (body ++ [last]).flatMap encode)
    (leaves : last.opcode ≠ .jumpZero ∧ last.opcode ≠ .loop) :
    unit.LaidOut (places 0 ((body ++ [last]).map stored)) := by
  have size : unit.size = span body + last.size := by
    rw [← Array.length_toList, bytes, length_flatMap_encode, span_append, span_cons, span_nil,
      Nat.add_zero]
  have whole : Laid 0 ((body ++ [last]).map stored) loops := by
    have plain : Laid (0 + span body) [last] [] := .plain (by simpa using leaves)
    have both := (laid.append plain).map_stored
    rwa [List.append_nil] at both
  have inside {start stop : Nat} (here : (start, stop) ∈ loops) : stop < unit.size := by
    have := laid.within _ here
    have := last.size_pos
    omega
  refine ⟨Code.decode?_of_bytes bytes, ?_, ?_, ?_⟩
  · intro o target there
    obtain ⟨start, begins, here⟩ := whole.belong _ _ there
    have loop := whole.mem_iff.1 here
    refine ⟨⟨start, begins, loop⟩, inside here, ?_⟩
    -- Behind the last instruction of the loop the unit goes on.
    obtain ⟨last', distance, back, ends, -⟩ := loop.back
    rcases next_of_mem_places back with ending | next
    · have := inside here
      rw [span_map_stored, span_append, span_cons, span_nil] at ending
      have five : (Instruction.loop distance).size = 5 := rfl
      omega
    · rwa [← ends]
  · intro o distance there
    obtain ⟨start, begins, here⟩ := whole.belong _ _ there
    refine ⟨start, whole.mem_iff.1 here, fun start' loop => ?_⟩
    obtain ⟨last', distance', back, ends, returns⟩ := loop.back
    obtain rfl : last' = o := by omega
    cases eq_of_mem_places there back
    omega
  · intro start stop start' stop' loop loop'
    exact whole.nested _ (whole.mem_iff.2 loop) _ (whole.mem_iff.2 loop')

/-- What makes the tape or the table, or leaves a unit, stands outside of the body. -/
theorem mem_places_outer {o : Nat} {i : Instruction} {pre body post : List Instruction}
    (inner : body.all isInner = true) (outer : i.isInner = false) :
    (o, i) ∈ places 0 ((pre ++ body ++ post).map stored) ↔
      (o, i) ∈ places 0 pre ∨ (o, i) ∈ places (span (pre ++ body)) post := by
  have absent : (o, i) ∉ places (0 + span pre) body := by
    intro there
    rw [List.all_eq_true.1 inner i (mem_of_mem_places there)] at outer
    cases outer
  have noProcedure : ∀ id, i ≠ .procedure id := by
    rintro id rfl
    cases outer
  rw [mem_places_stored noProcedure, places_append, places_append, List.mem_append, List.mem_append,
    or_iff_left absent, Nat.zero_add]

end Instruction

namespace Program

open Instruction (places span)

/-- The code before the main body sets the tape and the pointer up, and then the table if there is
one. -/
theorem places_prologue (p : Program) :
    places 0 p.prologue.toList = [(0, .newTape tapeSize), (5, .constant 0), (10, .storePointer)] ++
      if p.dispatches then [(11, .newTable)] else [] := by
  unfold prologue
  cases p.dispatches <;> rfl

/-- The code behind the main body loads the current cell and returns it. -/
theorem places_epilogue (base : Nat) :
    places base epilogue.toList =
      [(base, .loadPointer), (base + 1, .loadCell), (base + 2, .returnValue)] :=
  rfl

/-- A main unit begins and ends as it should if its body has inner instructions only. -/
theorem mainEnds_of_bytes {p : Program} {unit : Code} {body : List Instruction}
    (inner : body.all Instruction.isInner = true)
    (bytes : unit.toList =
      (p.prologue.toList ++ body ++ epilogue.toList).flatMap Instruction.encode) :
    p.MainEnds unit
      (places 0 ((p.prologue.toList ++ body ++ epilogue.toList).map Instruction.stored)) := by
  have size : unit.size = span (p.prologue.toList ++ body) + 3 := by
    rw [← Array.length_toList, bytes, Instruction.length_flatMap_encode, Instruction.span_append]
    rfl
  constructor
  all_goals
    intros
    rw [Instruction.mem_places_outer inner rfl, places_prologue, places_epilogue]
  · cases p.dispatches <;> simp
  · cases p.dispatches <;> simp
  · rw [size]
    cases p.dispatches <;> simp
  · cases p.dispatches <;> simp

/-- A procedure ends as it should if its body has inner instructions only. -/
theorem procedureEnds_of_bytes {unit : Code} {body : List Instruction}
    (inner : body.all Instruction.isInner = true)
    (bytes : unit.toList = (body ++ [Instruction.leave]).flatMap Instruction.encode) :
    unit.ProcedureEnds (places 0 ((body ++ [Instruction.leave]).map Instruction.stored)) := by
  have size : unit.size = span body + 1 := by
    rw [← Array.length_toList, bytes, Instruction.length_flatMap_encode, Instruction.span_append]
    rfl
  have outer {o : Nat} {i : Instruction} (h : i.isInner = false) :
      (o, i) ∈ places 0 ((body ++ [Instruction.leave]).map Instruction.stored) ↔
        (o, i) = (span body, Instruction.leave) := by
    have split :
        (o, i) ∈ places 0 (([] ++ body ++ [Instruction.leave]).map Instruction.stored) ↔ _ :=
      Instruction.mem_places_outer inner h
    rw [List.nil_append] at split
    rw [split]
    simp
  constructor
  · intro o
    rw [outer rfl, size]
    simp
  all_goals
    intros
    rw [outer rfl]
    simp

/-- The main unit of a program is laid out, with its beginning and its end. -/
theorem laidOut_main {p : Program} {unit : Code}
    (bytes : unit.toList =
      (p.prologue.toList ++ Node.instructions (span p.prologue.toList) p.main ++
      epilogue.toList).flatMap Instruction.encode) (fits : unit.size < 2 ^ 32) :
    ∃ places, unit.LaidOut places ∧ p.MainEnds unit places := by
  have size : unit.size = span p.prologue.toList +
      span (Node.instructions (span p.prologue.toList) p.main) + 3 := by
    rw [← Array.length_toList, bytes, Instruction.length_flatMap_encode, Instruction.span_append,
      Instruction.span_append]
    rfl
  obtain ⟨loops, body⟩ := Node.exists_laid_instructions p.main (span p.prologue.toList) (by omega)
  have before : Instruction.Laid 0 p.prologue.toList [] := by
    refine .plain ?_
    unfold prologue
    cases p.dispatches <;> simp [Instruction.opcode]
  have behind (base : Nat) : Instruction.Laid base [.loadPointer, .loadCell] [] :=
    .plain (by simp [Instruction.opcode])
  have whole := (before.append (by rwa [Nat.zero_add])).append (behind _)
  have split : p.prologue.toList ++ Node.instructions (span p.prologue.toList) p.main ++
      epilogue.toList =
      p.prologue.toList ++ Node.instructions (span p.prologue.toList) p.main ++
        [.loadPointer, .loadCell] ++ [.returnValue] :=
    (List.append_assoc _ [Instruction.loadPointer, .loadCell] [.returnValue]).symm
  have laid := whole.laidOut (split ▸ bytes) (by simp [Instruction.opcode])
  rw [← split] at laid
  exact ⟨_, laid, mainEnds_of_bytes (Node.all_isInner_instructions _ _) bytes⟩

/-- A procedure of a program is laid out, with its end. -/
theorem laidOut_procedure {nodes : List Node} {unit : Code}
    (bytes : unit.toList =
      (Node.instructions 0 nodes ++ [Instruction.leave]).flatMap Instruction.encode)
    (fits : unit.size < 2 ^ 32) : ∃ places, unit.LaidOut places ∧ unit.ProcedureEnds places := by
  have size : unit.size = span (Node.instructions 0 nodes) + 1 := by
    rw [← Array.length_toList, bytes, Instruction.length_flatMap_encode, Instruction.span_append]
    rfl
  obtain ⟨loops, body⟩ := Node.exists_laid_instructions nodes 0 (by omega)
  exact ⟨_, body.laidOut bytes (by simp [Instruction.opcode]),
    procedureEnds_of_bytes (Node.all_isInner_instructions _ _) bytes⟩

/-- **Emitted code is laid out.** Every unit is read to its end, all its jumps belong to loops that
lie one inside the other or apart, and what stands at the ends of units stands there only. -/
theorem laidOut_of_compile {p : Program} {code : Bytecode} (compiled : p.compile = .ok code)
    (short : code.Short) : p.LaidOut code := by
  have emitted := emitted_of_compile compiled
  constructor
  · exact laidOut_main (emitted.unit none _ rfl) short.main
  · intro unit member
    obtain ⟨id, inside, rfl⟩ := Array.mem_iff_getElem.1 member
    have known : id < p.procedures.length := emitted.count ▸ inside
    have found : p.unitCode (some id) =
        some (Node.instructions 0 p.procedures[id].body ++ [.leave]) := by
      rw [unitCode, List.getElem?_eq_getElem known]
      rfl
    have bytes := emitted.unit (some id) _ found
    have own : code.unit (some id) = code.procedures[id] := by
      show code.procedures[id]?.getD #[] = _
      rw [Array.getElem?_eq_getElem inside, Option.getD_some]
    rw [own] at bytes
    exact laidOut_procedure bytes (short.procedures _ member)

/-- Loops inside each other and one behind the other, and a procedure with a loop. -/
theorem laidOut_of_compile_nested :
    let p : Program := {
      main := [.loop [.amend 1, .loop [.move (-1)], .loop []], .register 0, .call]
      procedures := [⟨0, [.loop [.write]]⟩]
      calls := 1 }
    ∃ code, p.compile = .ok code ∧ code.Short ∧ p.LaidOut code := by
  intro p
  have compiled : ∃ code, p.compile = .ok code ∧ code.Short := ⟨_, rfl, by decide, by decide⟩
  obtain ⟨code, compiled, short⟩ := compiled
  exact ⟨code, compiled, short, laidOut_of_compile compiled short⟩

end Program

end TapeLang
