/-
# Built programs do not go wrong

Bytecode that was built from a source keeps a machine in order from the first step on: the frame
that runs stands at an instruction, with the stack and the table in the shape that belongs to the
place; the frames that wait stand behind calls, with an empty stack; and the outermost frame, and
only this one, runs the main unit. A machine in order takes a step that leaves it in order, or stops
with a fault that a program can have by its own doing, or ends the run at the last byte of the main
unit: `Machine.step_inOrder`. So no run breaks the machine, wherever it goes: `build_safe`.
-/
import TapeLang.Build
import TapeLang.Proofs.Block
import TapeLang.Proofs.Discipline
import TapeLang.Proofs.Grammar

namespace TapeLang

/-! ## Boundaries -/

/-- The positions of a unit at which instructions begin, as the definitions of the opcodes divide
it. -/
inductive Code.Boundary (unit : Code) : Nat → Prop
  | first : Boundary unit 0
  | next {position : Nat} {b : UInt8} {d : Definition} :
      Boundary unit position → unit[position]? = some b → InstructionSet.standard b = some d →
      Boundary unit (position + 1 + (Operands.distance d.widths).toNat)

/-- An instruction begins at a position of a unit and ends inside the unit. -/
structure Code.Begins (unit : Code) (position : Nat) : Prop where
  boundary : unit.Boundary position
  whole : ∃ b d, unit[position]? = some b ∧ InstructionSet.standard b = some d ∧
    position + 1 + (Operands.distance d.widths).toNat ≤ unit.size

namespace Code

variable {unit : Code} {before after : List Instruction} {i : Instruction}

/-- At the place of an instruction stands its opcode. -/
theorem getElem?_of_bytes
    (bytes : unit.toList = (before ++ i :: after).flatMap Instruction.encode) :
    unit[Instruction.span before]? = some i.opcode.toByte := by
  rw [← Array.getElem?_toList, bytes, List.flatMap_append,
    ← Instruction.length_flatMap_encode before,
    List.getElem?_append_right (Nat.le_refl _), Nat.sub_self]
  rfl

/-- The size of an instruction is what its definition says. -/
theorem size_eq_definition (i : Instruction) :
    i.size = 1 + (Operands.distance i.opcode.definition.widths).toNat := by
  cases i <;> rfl

/-- Behind an instruction at a boundary there is a boundary. -/
theorem Boundary.behind (there : unit.Boundary (Instruction.span before))
    (bytes : unit.toList = (before ++ i :: after).flatMap Instruction.encode) :
    unit.Boundary (Instruction.span (before ++ [i])) := by
  have next := there.next (getElem?_of_bytes bytes) (InstructionSet.standard_toByte i.opcode)
  rw [Nat.add_assoc, ← size_eq_definition] at next
  simpa using next

/-- The bytes of instructions have a boundary in front of each of them. -/
theorem boundary_of_bytes (bytes : unit.toList = (before ++ after).flatMap Instruction.encode) :
    unit.Boundary (Instruction.span before) := by
  -- The boundaries are passed from the front, so the induction is on what is still to be passed.
  have further (todo done : List Instruction) (there : unit.Boundary (Instruction.span done))
      (bytes : unit.toList = (done ++ (todo ++ after)).flatMap Instruction.encode) :
      unit.Boundary (Instruction.span (done ++ todo)) := by
    induction todo generalizing done with
    | nil => rwa [List.append_nil]
    | cons i todo ih =>
      have next := ih (done ++ [i]) (there.behind bytes) (by simpa using bytes)
      rwa [List.append_assoc] at next
  exact further before [] .first bytes

/-- The bytes of an instruction between others begin at a boundary and end inside. -/
theorem begins_of_bytes (bytes : unit.toList = (before ++ i :: after).flatMap Instruction.encode) :
    unit.Begins (Instruction.span before) := by
  refine ⟨boundary_of_bytes bytes, _, _, getElem?_of_bytes bytes,
    InstructionSet.standard_toByte i.opcode, ?_⟩
  have size := congrArg List.length bytes
  rw [Array.length_toList, Instruction.length_flatMap_encode, Instruction.span_append,
    Instruction.span_cons] at size
  rw [Nat.add_assoc, ← size_eq_definition, size]
  omega

end Code

/-! ## Straight instructions -/

/-- A fault that is the doing of a program or its host, and not of its code. -/
structure Fault.Cause.IsOwn (cause : Fault.Cause) : Prop where
  valid : cause.kind ≠ .invalidProgram
  table : cause.kind ≠ .noTable
  room : cause ≠ .operandStack

/-- The kinds that only a program or its host can cause. -/
theorem Fault.Cause.isOwn_of_kind {cause : Fault.Cause}
    (h : cause.kind ∈ [Fault.Kind.keyCollision, .unregisteredCall, .tapeBounds, .io]) :
    cause.IsOwn := by
  refine ⟨?_, ?_, ?_⟩
  · intro invalid
    simp [invalid] at h
  · intro table
    simp [table] at h
  · rintro rfl
    simp [kind] at h

theorem Fault.Cause.isOwn_callDepth : callDepth.IsOwn :=
  ⟨by decide, by decide, by decide⟩

/-- An instruction is allowed where the stack is high enough and low enough for it, the table it
uses is there, and it leaves the shape of the unit if it does not go on with the next one. -/
theorem Shape.allows_iff {home s : Shape} {i : Instruction} :
    home.allows s i = true ↔
      i.pops ≤ s.height ∧ (s.after i).height ≤ 3 ∧ (i.usesTable = true → s.table = true) ∧
        (i.isStraight = false → s.after i = home) := by
  simp only [allows, Bool.and_eq_true, decide_eq_true_eq, Bool.or_eq_true, Bool.not_eq_true',
    beq_iff_eq, and_assoc]
  cases i.usesTable <;> cases i.isStraight <;> simp

/-- The height of the stack of a machine, and whether it has a table. -/
def Machine.shape (m : Machine) : Shape :=
  ⟨m.stack.length, m.table.isSome⟩

/-- A step that goes on with a shape and the same frames waiting, or stops with a fault of the
program and a low stack. -/
def Step.Shapes {σ : Type} (s : Shape) (callers : List Frame) : Step σ → Prop
  | .next m _ => m.shape = s ∧ m.callers = callers
  | .fault cause m _ => cause.IsOwn ∧ m.stack.length ≤ 3
  | .halt .. | .broken .. => False

/-- A step to a shape is one to any equal shape. -/
theorem Step.Shapes.cast {σ : Type} {s t : Shape} {callers : List Frame} {step : Step σ}
    (h : step.Shapes s callers) (same : s = t) : step.Shapes t callers :=
  same ▸ h

namespace Machine

variable {σ : Type} {m : Machine} {host : σ}

/-- With room on the stack, a push leaves one value more. -/
theorem push_shapes (room : m.stack.length < 3) (value : Int32) :
    (m.push value host).Shapes ⟨m.stack.length + 1, m.table.isSome⟩ m.callers := by
  have below : m.stack.length < stackLimit := Nat.lt_trans room (by decide)
  rw [push, if_pos below]
  exact ⟨rfl, rfl⟩

/-- Changing a cell leaves the shape as it is. -/
theorem storeCell_shapes (low : m.stack.length ≤ 3) (index value : Int32) :
    (m.storeCell index value host).Shapes m.shape m.callers := by
  unfold storeCell
  split
  · exact ⟨rfl, rfl⟩
  · exact ⟨Fault.Cause.isOwn_of_kind (by simp [Fault.Cause.kind]), low⟩

/-- With room on the stack, reading a cell leaves one value more. -/
theorem loadCell_shapes (room : m.stack.length < 3) (index : Int32) :
    (m.loadCell index host).Shapes ⟨m.stack.length + 1, m.table.isSome⟩ m.callers := by
  unfold loadCell
  split
  · exact push_shapes room _
  · exact ⟨Fault.Cause.isOwn_of_kind (by simp [Fault.Cause.kind]), Nat.le_of_lt room⟩

/-- With a table, binding a key leaves the shape as it is. -/
theorem bind_shapes (table : m.table.isSome = true) (low : m.stack.length ≤ 3) (key : Int32)
    (handle : Handle) : (m.bind key handle host).Shapes m.shape m.callers := by
  obtain ⟨t, found⟩ := Option.isSome_iff_exists.1 table
  simp only [bind, found]
  cases t.register key handle with
  | ok t' => exact ⟨by simp [shape, found], rfl⟩
  | error collision => exact ⟨Fault.Cause.isOwn_of_kind (by simp [Fault.Cause.kind]), low⟩

/-- With a table and room on the stack, looking a key up leaves one value more. -/
theorem find_shapes (table : m.table.isSome = true) (room : m.stack.length < 3) (key : Int32) :
    (m.find key host).Shapes ⟨m.stack.length + 1, m.table.isSome⟩ m.callers := by
  unfold find
  split
  · next missing => simp [missing] at table
  · exact push_shapes (m := { m with lastKey := key }) room _

theorem exists_cons_cons {stack : List Int32} (h : 2 ≤ stack.length) :
    ∃ b a rest, stack = b :: a :: rest := by
  match stack with
  | b :: a :: rest => exact ⟨b, a, rest, rfl⟩
  | [] | [_] => simp at h

variable [Host σ]

/-- A straight instruction that is allowed does to the shape what is said of it. -/
theorem execute_shapes {code : Bytecode} {home : Shape} {i : Instruction}
    (straight : i.isStraight = true) (allowed : home.allows m.shape i = true) :
    (m.execute code host i).Shapes (m.shape.after i) m.callers := by
  obtain ⟨enough, low, table, -⟩ := Shape.allows_iff.1 allowed
  -- The cases divide by what is taken from the stack: `enough` says that it is there, and `low`
  -- leaves room for what is pushed.
  have after : m.shape.after i =
      ⟨m.stack.length - i.pops + i.pushes, m.table.isSome || i == .newTable⟩ :=
    rfl
  simp only [after] at low ⊢
  simp only [shape] at enough table
  cases i with
  | jumpZero | loop | invoke | leave | returnValue => cases straight
  | newTape => exact ⟨by simp [shape, Instruction.pops, Instruction.pushes], rfl⟩
  | newTable => exact ⟨by simp [shape, Instruction.pops, Instruction.pushes], rfl⟩
  | constant | loadPointer | loadScratch | procedure =>
    exact (push_shapes low _).cast (by simp [Instruction.pops, Instruction.pushes])
  | storePointer | storeScratch =>
    obtain ⟨value, stack, top⟩ := List.exists_cons_of_length_pos enough
    simp only [execute, top]
    exact ⟨by simp [shape, Instruction.pops, Instruction.pushes], rfl⟩
  | loadCell =>
    obtain ⟨index, stack, top⟩ := List.exists_cons_of_length_pos enough
    simp only [execute, top, Instruction.pops, Instruction.pushes, List.length_cons,
      Nat.add_sub_cancel] at low ⊢
    exact (loadCell_shapes (m := { m with stack := stack }) low index).cast (by simp)
  | storeCell =>
    obtain ⟨value, index, stack, top⟩ := exists_cons_cons enough
    simp only [execute, top, Instruction.pops, Instruction.pushes, List.length_cons] at low ⊢
    have below : stack.length ≤ 3 := by omega
    exact (storeCell_shapes (m := { m with stack := stack }) below index value).cast
      (by simp [shape])
  | add | sub =>
    obtain ⟨b, a, stack, top⟩ := exists_cons_cons enough
    simp only [execute, top, Instruction.pops, Instruction.pushes, List.length_cons] at low ⊢
    have room : stack.length < 3 := by omega
    exact (push_shapes (m := { m with stack := stack }) room _).cast (by simp)
  | read =>
    simp only [execute]
    split
    · exact (push_shapes low _).cast (by simp [Instruction.pops, Instruction.pushes])
    · exact ⟨Fault.Cause.isOwn_of_kind (by simp [Fault.Cause.kind]), Nat.le_of_lt low⟩
  | write =>
    obtain ⟨value, stack, top⟩ := List.exists_cons_of_length_pos enough
    simp only [execute, top, Instruction.pops, Instruction.pushes, List.length_cons,
      Nat.add_sub_cancel] at low ⊢
    split
    · exact ⟨by simp [shape], rfl⟩
    · exact ⟨Fault.Cause.isOwn_of_kind (by simp [Fault.Cause.kind]), low⟩
  | register =>
    obtain ⟨handle, key, stack, top⟩ := exists_cons_cons enough
    simp only [execute, top, Instruction.pops, Instruction.pushes, List.length_cons] at low ⊢
    have below : stack.length ≤ 3 := by omega
    exact (bind_shapes (m := { m with stack := stack }) (table rfl) below key ⟨handle.toInt⟩).cast
      (by simp [shape])
  | lookup =>
    obtain ⟨key, stack, top⟩ := List.exists_cons_of_length_pos enough
    simp only [execute, top, Instruction.pops, Instruction.pushes, List.length_cons,
      Nat.add_sub_cancel] at low ⊢
    exact (find_shapes (m := { m with stack := stack }) (table rfl) low key).cast (by simp)

end Machine

/-! ## Frames in order -/

/-- A frame stands at an instruction of its unit, where the code gives a shape. -/
def Program.Stands (p : Program) (f : Frame) (s : Shape) : Prop :=
  ∃ before i after, p.unitCode f.unit = some (before ++ i :: after) ∧
    f.ip = (Instruction.span before : Int) - 1 ∧
    (p.home f.unit).climbAll (Program.entry f.unit) before = some s

/-- Frames that wait for a unit: each one waits for a procedure, and the last one runs the main
unit. -/
def Frame.Await : Option Nat → List Frame → Prop
  | u, [] => u = none
  | u, c :: rest => u ≠ none ∧ Await c.unit rest

/-- A machine in order. -/
structure Machine.InOrder (p : Program) (m : Machine) : Prop where
  stands : p.Stands m.frame m.shape
  waiting : ∀ c ∈ m.callers, p.Stands c ⟨0, true⟩
  await : Frame.Await m.frame.unit m.callers

/-- What may come of a step of a machine in order: another such machine, a fault of the program, or
the end of the run at the last byte of the main unit. -/
def Step.Proper {σ : Type} (p : Program) (code : Bytecode) (m : Machine) : Step σ → Prop
  | .next m' _ => m'.InOrder p
  | .fault cause m' _ => cause.IsOwn ∧ m'.stack.length ≤ 3
  | .halt _ m' _ =>
    m.frame.unit = none ∧ m.callers = [] ∧ m.frame.ip + 2 = code.main.size ∧
      code.main.back? = some Opcode.returnValue.toByte ∧ m'.stack = []
  | .broken .. => False

/-- What stands at a place of a unit in good order: its last instruction, or one of its body, which
leads to places in the body. -/
theorem Shape.InOrder.cases {home s : Shape} {body : List Instruction} {last : Instruction}
    (order : home.InOrder s body last) {before after : List Instruction} {i : Instruction}
    (place : body ++ [last] = before ++ i :: after) :
    (after = [] ∧ i = last ∧ before = body) ∨
      ∃ rest, after = rest ++ [last] ∧ body = before ++ i :: rest ∧
        i.Leads (home.Lands s 0 body) (Instruction.span before) := by
  rcases List.eq_nil_or_concat after with rfl | ⟨rest, end', rfl⟩
  · obtain ⟨rfl, same⟩ := List.append_inj' place rfl
    exact .inl ⟨rfl, (List.cons.inj same).1.symm, rfl⟩
  · rw [List.concat_eq_append, ← List.cons_append, ← List.append_assoc] at place
    obtain ⟨rfl, same⟩ := List.append_inj' place rfl
    obtain ⟨rfl, -⟩ := List.cons.inj same
    have leads := order.leads
    rw [Instruction.leadAll_append, Nat.zero_add] at leads
    exact .inr ⟨rest, List.concat_eq_append, rfl, leads.2.1⟩

/-- A unit is entered at its first instruction. -/
theorem Program.stands_entry {p : Program} {u : Option Nat} {is : List Instruction}
    (found : p.unitCode u = some is) (some : is ≠ []) : p.Stands { unit := u } (entry u) := by
  obtain ⟨i, after, rfl⟩ := List.exists_cons_of_ne_nil some
  exact ⟨[], i, after, found, rfl, rfl⟩

/-- A procedure begins with an empty stack and a table. -/
theorem Program.stands_procedure {p : Program} {id : Nat} (known : id < p.procedures.length) :
    p.Stands { unit := some id } ⟨0, true⟩ := by
  have found : p.unitCode (some id) =
      some (Node.instructions 0 p.procedures[id].body ++ [.leave]) := by
    simp [unitCode, known]
  exact stands_entry found (by simp)

/-- The main unit begins with an empty stack and no table. -/
theorem Program.stands_main (p : Program) : p.Stands {} ⟨0, false⟩ := by
  have found : p.unitCode none = some _ := rfl
  exact stands_entry found (by simp [epilogue])

/-! ## Steps of a machine in order -/

namespace Machine

/-- Where a machine in order stands: at the instruction `i` of its unit, which is made of `body` and
an instruction that leaves it. -/
structure Place (p : Program) (code : Bytecode) (m : Machine) (before : List Instruction)
    (i : Instruction) (after body : List Instruction) : Prop where
  unit : p.unitCode m.frame.unit = some (before ++ i :: after)
  ip : m.frame.ip = (Instruction.span before : Int) - 1
  reached : (p.home m.frame.unit).climbAll (Program.entry m.frame.unit) before = some m.shape
  allowed : (p.home m.frame.unit).allows m.shape i = true
  has : code.Has m.frame.unit (Instruction.span before) (i :: after)
  whole : body ++ [Program.last m.frame.unit] = before ++ i :: after
  order :
    (p.home m.frame.unit).InOrder (Program.entry m.frame.unit) body (Program.last m.frame.unit)

variable {p : Program} {code : Bytecode} {m : Machine} {before after body : List Instruction}
  {i : Instruction}

/-- A machine in order stands at an instruction of its unit. -/
theorem InOrder.place (emitted : p.Emitted code) (short : code.Short) (served : p.Served)
    (h : m.InOrder p) : ∃ before i after body, m.Place p code before i after body := by
  obtain ⟨before, i, after, unit, ip, reached⟩ := h.stands
  have has := emitted.has unit
  have fits : Instruction.span (before ++ i :: after) < 2 ^ 32 := by
    have inside := has.le_size
    have := short.unit_lt m.frame.unit
    omega
  obtain ⟨body, whole, order⟩ := Program.inOrder served unit fits
  have level := order.level
  rw [← whole] at level
  obtain ⟨here, reached', allowed⟩ := Shape.exists_of_climbAll level
  obtain rfl : m.shape = here := Option.some.inj (reached.symm.trans reached')
  refine ⟨before, i, after, body, unit, ip, reached, allowed, ?_, whole.symm, order⟩
  -- What is behind `before` stands at the end of it, since the unit begins at zero.
  have right := has.right
  rwa [Nat.zero_add] at right

namespace Place

/-- A machine stands where its place is. -/
theorem eq_stand (here : m.Place p code before i after body) :
    m = m.stand m.frame.unit (Instruction.span before) := by
  have frame : m.frame = { unit := m.frame.unit, ip := (Instruction.span before : Int) - 1 } := by
    rw [← here.ip]
  rw [stand, ← frame]

/-- Behind an instruction that does not leave the unit there is another one. -/
theorem exists_next (here : m.Place p code before i after body)
    (other : i ≠ Program.last m.frame.unit) : ∃ next rest, after = next :: rest := by
  rcases here.order.cases here.whole with ⟨-, same, -⟩ | ⟨rest, rfl, -, -⟩
  · exact absurd same other
  · cases rest with
    | nil => exact ⟨_, [], rfl⟩
    | cons next rest => exact ⟨next, _, rfl⟩

/-- The place behind an instruction. -/
theorem stands_next (here : m.Place p code before i after body)
    (other : i ≠ Program.last m.frame.unit) :
    p.Stands { unit := m.frame.unit, ip := ((Instruction.span before + i.size : Nat) : Int) - 1 }
      (m.shape.after i) := by
  obtain ⟨next, rest, rfl⟩ := here.exists_next other
  refine ⟨before ++ [i], next, rest, by simpa using here.unit, by simp, ?_⟩
  have climbed : (p.home m.frame.unit).climb m.shape i = some (m.shape.after i) :=
    if_pos here.allowed
  rw [Shape.climbAll_append_of here.reached, Shape.climbAll, climbed, Option.bind_some,
    Shape.climbAll]

/-- A place of the body that has the shape of the unit. -/
theorem stands_of_lands (here : m.Place p code before i after body) {position : Nat}
    (there : (p.home m.frame.unit).Lands (Program.entry m.frame.unit) 0 body position) :
    p.Stands { unit := m.frame.unit, ip := (position : Int) - 1 } (p.home m.frame.unit) := by
  obtain ⟨front, back, rfl, rfl, reached⟩ := there
  have unit := here.unit
  rw [← here.whole, List.append_assoc] at unit
  cases back with
  | nil => exact ⟨front, _, [], unit, by simp, reached⟩
  | cons next rest => exact ⟨front, next, _, unit, by simp, reached⟩

/-- An instruction inside the unit leads to places of the body. -/
theorem leads (here : m.Place p code before i after body) (other : i ≠ Program.last m.frame.unit) :
    i.Leads ((p.home m.frame.unit).Lands (Program.entry m.frame.unit) 0 body)
      (Instruction.span before) := by
  rcases here.order.cases here.whole with ⟨-, same, -⟩ | ⟨-, -, -, leads⟩
  · exact absurd same other
  · exact leads

/-- An instruction that leaves its line leaves the shape of the unit. -/
theorem after_eq_home (here : m.Place p code before i after body) (turns : i.isStraight = false) :
    m.shape.after i = p.home m.frame.unit :=
  (Shape.allows_iff.1 here.allowed).2.2.2 turns

end Place

variable {σ : Type} [Host σ] {host : σ}

/-- A machine in order stays so when it goes on in its unit, at a place of the right shape. -/
theorem InOrder.move (order : m.InOrder p) {m' : Machine} (unit : m'.frame.unit = m.frame.unit)
    (callers : m'.callers = m.callers) (stands : p.Stands m'.frame m'.shape) : m'.InOrder p := by
  refine ⟨stands, ?_, ?_⟩
  · rw [callers]
    exact order.waiting
  · rw [unit, callers]
    exact order.await

theorem last_not_straight (u : Option Nat) : (Program.last u).isStraight = false := by
  cases u <;> rfl

/-- A step that goes on with the next instruction is proper. -/
theorem Place.step_of_straight (here : m.Place p code before i after body) (order : m.InOrder p)
    (straight : i.isStraight = true) : (m.step code host).Proper p code m := by
  have step := step_straight here.has straight m host
  rw [← here.eq_stand] at step
  have stored : i.stored.isStraight = true := by rw [Instruction.isStraight_stored, straight]
  have allowed : (p.home m.frame.unit).allows m.shape i.stored = true := by
    rw [Shape.allows_stored]
    exact here.allowed
  have shapes : (m.execute code host i.stored).Shapes _ _ := execute_shapes stored allowed
  have other : i ≠ Program.last m.frame.unit := by
    rintro rfl
    rw [last_not_straight] at straight
    cases straight
  rw [step]
  cases executed : m.execute code host i.stored with
  | next m' host' =>
    rw [executed] at shapes
    obtain ⟨shape, callers⟩ := shapes
    rw [Shape.after_stored] at shape
    have stands : p.Stands _ m'.shape := shape ▸ here.stands_next other
    exact order.move rfl callers stands
  | fault cause m' host' =>
    rw [executed] at shapes
    exact shapes
  | halt result m' host' | broken how host' =>
    rw [executed] at shapes
    exact shapes.elim

/-- Where an instruction that leaves its line takes a value, this is the only one on the stack. -/
theorem Place.exists_value (here : m.Place p code before i after body)
    (turns : i.isStraight = false) (one : i.pops = 1) : ∃ value, m.stack = [value] := by
  have enough := (Shape.allows_iff.1 here.allowed).1
  have height := congrArg Shape.height (here.after_eq_home turns)
  rw [p.height_home] at height
  simp only [Shape.after, shape, one] at height enough
  exact List.length_eq_one_iff.1 (by omega)

/-- A step at an instruction other than a jump back executes it behind its operand. -/
theorem Place.step_eq (here : m.Place p code before i after body) (forward : i.opcode ≠ .loop)
    (host : σ) : m.step code host =
      (m.stand m.frame.unit (Instruction.span before + i.size)).execute code host i.stored := by
  have step := step_of_has here.has forward m host
  rwa [← here.eq_stand] at step

/-- A step at a conditional jump is proper, whether it jumps or not. -/
theorem Place.step_of_jumpZero {target : UInt32}
    (here : m.Place p code before (.jumpZero target) after body) (order : m.InOrder p) :
    (m.step code host).Proper p code m := by
  have other : Instruction.jumpZero target ≠ Program.last m.frame.unit := by
    cases m.frame.unit <;> simp [Program.last]
  have turned := here.after_eq_home rfl
  obtain ⟨value, top⟩ := here.exists_value rfl rfl
  have shape (f : Frame) : ({ m with stack := [], frame := f } : Machine).shape =
      m.shape.after (.jumpZero target) := by
    simp [Machine.shape, Shape.after, top, Instruction.pops, Instruction.pushes]
  rw [here.step_eq (by simp [Instruction.opcode])]
  simp only [Instruction.stored, execute, stand, top]
  by_cases zero : value = 0
  · rw [if_pos zero]
    refine order.move rfl rfl ?_
    have stands := here.stands_of_lands (here.leads other)
    rw [← turned, ← shape] at stands
    exact stands
  · rw [if_neg zero]
    refine order.move rfl rfl ?_
    have stands := here.stands_next other
    rw [← shape] at stands
    exact stands

/-- A step at a jump back is proper. -/
theorem Place.step_of_loop {distance : UInt32}
    (here : m.Place p code before (.loop distance) after body) (order : m.InOrder p) :
    (m.step code host).Proper p code m := by
  have other : Instruction.loop distance ≠ Program.last m.frame.unit := by
    cases m.frame.unit <;> simp [Program.last]
  obtain ⟨place, back, there⟩ := here.leads other
  have step := step_of_has_loop here.has (by omega) m host
  rw [← here.eq_stand, show Instruction.span before - distance.toNat = place by omega] at step
  have turned : m.shape = p.home m.frame.unit := by
    rw [← here.after_eq_home rfl]
    simp [Machine.shape, Shape.after, Instruction.pops, Instruction.pushes]
  rw [step]
  refine order.move rfl rfl ?_
  have stands := here.stands_of_lands there
  rw [← turned] at stands
  exact stands

/-- A step at a call is proper, whether it enters the procedure or faults. -/
theorem Place.step_of_invoke (emitted : p.Emitted code)
    (here : m.Place p code before .invoke after body) (order : m.InOrder p) :
    (m.step code host).Proper p code m := by
  have other : Instruction.invoke ≠ Program.last m.frame.unit := by
    cases m.frame.unit <;> simp [Program.last]
  have table : m.table.isSome = true := (Shape.allows_iff.1 here.allowed).2.2.1 rfl
  obtain ⟨t, found⟩ := Option.isSome_iff_exists.1 table
  obtain ⟨handle, top⟩ := here.exists_value rfl rfl
  have caller := here.stands_next other
  rw [show m.shape.after .invoke = ⟨0, true⟩ by
    simp [Machine.shape, Shape.after, top, table, Instruction.pops, Instruction.pushes]] at caller
  rw [here.step_eq (by decide)]
  simp only [Instruction.stored, execute, stand, top, invoke, found]
  split
  · next inside =>
    -- The caller waits behind its call, in the shape to which a return comes back.
    have known : handle.toInt.toNat < p.procedures.length := by
      rw [← emitted.count]
      omega
    rw [call]
    split
    · refine ⟨?_, ?_, ?_⟩
      · exact Program.stands_procedure known
      · rintro c (_ | ⟨_, hc⟩)
        · exact caller
        · exact order.waiting c hc
      · exact ⟨by simp, order.await⟩
    · exact ⟨Fault.Cause.isOwn_callDepth, Nat.zero_le _⟩
  · exact ⟨Fault.Cause.isOwn_of_kind (by simp [Fault.Cause.kind]), Nat.zero_le _⟩

/-- An instruction that leaves a unit stands at the end of it. -/
theorem Place.last_of_leads (here : m.Place p code before i after body)
    (leaves : ∀ wanted position, ¬ i.Leads wanted position) :
    after = [] ∧ i = Program.last m.frame.unit := by
  rcases here.order.cases here.whole with ⟨none, same, -⟩ | ⟨-, -, -, leads⟩
  · exact ⟨none, same⟩
  · exact absurd leads (leaves _ _)

/-- A step that leaves a procedure is proper. -/
theorem Place.step_of_leave (here : m.Place p code before .leave after body) (order : m.InOrder p) :
    (m.step code host).Proper p code m := by
  obtain ⟨-, last⟩ := here.last_of_leads fun _ _ => id
  have turned := here.after_eq_home rfl
  have await := order.await
  cases unit : m.frame.unit with
  | none =>
    rw [unit] at last
    cases last
  | some id =>
    cases callers : m.callers with
    | nil =>
      -- Only the main unit has no frame that waits for it.
      rw [unit, callers] at await
      cases await
    | cons c rest =>
      rw [callers] at await
      rw [unit] at turned
      rw [here.step_eq (by decide)]
      simp only [Instruction.stored, execute, stand, callers]
      have shape : m.shape = ⟨0, true⟩ := by
        rw [← show p.home (some id) = ⟨0, true⟩ from rfl, ← turned]
        simp [Machine.shape, Shape.after, Instruction.pops, Instruction.pushes]
      have stands := order.waiting c (callers ▸ List.mem_cons_self)
      refine ⟨?_, ?_, await.2⟩
      · rwa [← shape] at stands
      · exact fun f hf => order.waiting f (callers ▸ List.mem_cons_of_mem _ hf)

/-- A step that ends the main unit is proper. -/
theorem Place.step_of_returnValue (emitted : p.Emitted code)
    (here : m.Place p code before .returnValue after body) (order : m.InOrder p) :
    (m.step code host).Proper p code m := by
  obtain ⟨rfl, last⟩ := here.last_of_leads fun _ _ => id
  obtain ⟨value, top⟩ := here.exists_value rfl rfl
  have await := order.await
  cases unit : m.frame.unit with
  | some id =>
    rw [unit] at last
    cases last
  | none =>
    cases callers : m.callers with
    | cons c rest =>
      rw [unit, callers] at await
      exact absurd rfl await.1
    | nil =>
      have bytes := emitted.unit _ _ here.unit
      rw [unit] at bytes
      rw [here.step_eq (by decide)]
      simp only [Instruction.stored, execute, stand, top]
      refine ⟨unit, callers, ?_, ?_, rfl⟩
      · have size := congrArg List.length bytes
        rw [Array.length_toList, Instruction.length_flatMap_encode, Instruction.span_append] at size
        have main : code.main.size = Instruction.span before + 1 := size
        rw [here.ip, main]
        omega
      · have final := congrArg List.getLast? bytes
        rw [List.flatMap_append, List.getLast?_append] at final
        rw [← Array.getLast?_toList]
        exact final

/-- **One step of a machine in order** leaves it in order, stops with a fault of the program, or
ends the run at the last byte of the main unit. -/
theorem step_inOrder (emitted : p.Emitted code) (short : code.Short) (served : p.Served)
    (order : m.InOrder p) (host : σ) : (m.step code host).Proper p code m := by
  obtain ⟨before, i, after, body, here⟩ := order.place emitted short served
  cases turns : i.isStraight with
  | true => exact here.step_of_straight order turns
  | false =>
    cases i with
    | jumpZero target => exact here.step_of_jumpZero order
    | loop distance => exact here.step_of_loop order
    | invoke => exact here.step_of_invoke emitted order
    | leave => exact here.step_of_leave order
    | returnValue => exact here.step_of_returnValue emitted order
    | _ => cases turns

/-- A machine in order is in order after any number of steps. -/
theorem InOrder.of_reaches (emitted : p.Emitted code) (short : code.Short) (served : p.Served)
    {n : Nat} {c d : Machine × σ} (reached : Reaches code n c d) (order : c.1.InOrder p) :
    d.1.InOrder p := by
  induction reached with
  | refl => exact order
  | @head n m m' host host' e step _ ih =>
    have proper := step_inOrder emitted short served order host
    rw [step] at proper
    exact ih proper

/-- A new machine is in order. -/
theorem inOrder_new (p : Program) : ({} : Machine).InOrder p :=
  ⟨p.stands_main, nofun, rfl⟩

end Machine

/-! ## Programs that were read have the table they need -/

/-- The node of a run uses no table. -/
theorem Node.dispatch_of_run {count : Int} {kind : Token.Kind} {node : Node} {rest : List Node}
    (h : ofRun? count kind = some node) : dispatch (node :: rest) = dispatch rest := by
  cases kind <;> cases h <;> simp [dispatch, isDispatch]

/-- The node of a single operator other than a call uses no table. -/
theorem Node.dispatch_of_operator {kind : Token.Kind} {node : Node} {rest : List Node}
    (h : ofOperator? kind = some node) (other : kind ≠ .call) :
    dispatch (node :: rest) = dispatch rest := by
  cases kind <;> cases h
  case call => exact absurd rfl other
  all_goals simp [dispatch, isDispatch]

/-- Only calls and procedures make use of a table. -/
theorem Reads.call_or_procedure {first : Nat} {source : List Located} {nodes : List Node}
    {bodies : List (List Node)} (h : Reads first source nodes bodies)
    (uses : Node.dispatch nodes = true) : (∃ x ∈ source, x.kind = .call) ∨ bodies ≠ [] := by
  induction h with
  | nil => simp [Node.dispatch] at uses
  | comment _ _ ih =>
    refine (ih uses).imp_left ?_
    rintro ⟨y, hy, call⟩
    exact ⟨y, List.mem_cons_of_mem _ hy, call⟩
  | run hx _ ih =>
    rw [Node.dispatch_of_run hx] at uses
    refine (ih uses).imp_left ?_
    rintro ⟨y, hy, call⟩
    exact ⟨y, List.mem_cons_of_mem _ ((List.dropWhile_suffix _).subset hy), call⟩
  | @operator _ x _ _ _ _ hx _ ih =>
    by_cases call : x.kind = .call
    · exact .inl ⟨x, List.mem_cons_self, call⟩
    · rw [Node.dispatch_of_operator hx call] at uses
      refine (ih uses).imp_left ?_
      rintro ⟨y, hy, call⟩
      exact ⟨y, List.mem_cons_of_mem _ hy, call⟩
  | zero _ _ _ _ ih =>
    refine (ih (by simpa [Node.dispatch, Node.isDispatch] using uses)).imp_left ?_
    rintro ⟨y, hy, call⟩
    exact ⟨y, by simp [hy], call⟩
  | loop _ _ _ _ _ ihBody ih =>
    rw [Node.dispatch, Bool.or_eq_true] at uses
    rcases uses with inner | later
    · rcases ihBody inner with ⟨y, hy, call⟩ | defined
      · exact .inl ⟨y, by simp [hy], call⟩
      · exact .inr (by simp [defined])
    · rcases ih later with ⟨y, hy, call⟩ | defined
      · exact .inl ⟨y, by simp [hy], call⟩
      · exact .inr (by simp [defined])
  | procedure => exact .inr (List.cons_ne_nil _ _)

/-- A program that was read has a table when it needs one. -/
theorem Program.served_of_parse {source : List UInt8} {p : Program} (h : parse source = .ok p) :
    p.Served := by
  obtain ⟨main, bodies, reads, rfl⟩ := parse_eq_ok_iff.1 h
  intro uses
  simp only [dispatches, Bool.or_eq_true, decide_eq_true_eq]
  rcases reads.call_or_procedure uses with ⟨x, hx, call⟩ | defined
  · left
    have counted : 0 < Source.callCount source := by
      obtain ⟨⟨b, n⟩, hb, rfl⟩ := List.mem_map.1 hx
      refine List.countP_pos_iff.2 ⟨b, List.fst_mem_of_mem_zipIdx hb, ?_⟩
      simpa [Located.kind] using call
    omega
  · right
    simpa [numbered] using defined

/-- Bytecode that is built comes from a program that was read and compiled. -/
theorem exists_of_build {source : List UInt8} {code : Bytecode} (h : build source = .ok code) :
    ∃ p, Program.parse source = .ok p ∧ p.compile = .ok code := by
  unfold build buildFor at h
  cases read : Program.parse source with
  | error e =>
    rw [read] at h
    cases h
  | ok p =>
    rw [read] at h
    have mapped : p.compile.mapError BuildError.compile = .ok code := h
    refine ⟨p, rfl, ?_⟩
    cases compiled : p.compile with
    | error e =>
      rw [compiled] at mapped
      cases mapped
    | ok code' =>
      rw [compiled] at mapped
      cases mapped
      rfl

/-! ## Safe machines -/

/-- An instruction of its unit comes next for a frame. -/
def Frame.Begins (code : Bytecode) (f : Frame) : Prop :=
  ∃ position : Nat, f.ip + 1 = position ∧ (code.unit f.unit).Begins position

/-- What holds of a machine that is about to fetch an instruction, and of its step. -/
structure Machine.Safe {σ : Type} [Host σ] (code : Bytecode) (m : Machine) (host : σ) : Prop where
  /-- All active units stand at instructions. -/
  frames : ∀ f ∈ m.frame :: m.callers, f.Begins code
  /-- The stack is low. -/
  low : m.stack.length ≤ 3
  /-- The stack is empty where a procedure is entered. -/
  entered : m.frame.unit ≠ none → m.frame.ip = -1 → m.stack = []
  /-- The stack is empty where a procedure returns. -/
  leaving : ∀ position : Nat, m.frame.ip + 1 = position →
    (code.unit m.frame.unit)[position]? = some Opcode.leave.toByte → m.stack = []
  /-- The step does not break the machine. -/
  whole : ∀ how left, m.step code host ≠ .broken how left
  /-- Only a program or its host can make the step fail, and the stack is low then as well. -/
  faults : ∀ cause m' left, m.step code host = .fault cause m' left →
    cause.IsOwn ∧ m'.stack.length ≤ 3
  /-- The step ends the run only at the last byte of the main unit, with no frame waiting and with
  an empty stack. -/
  ends : ∀ result m' left, m.step code host = .halt result m' left →
    m.frame.unit = none ∧ m.callers = [] ∧ m.frame.ip + 2 = code.main.size ∧
      code.main.back? = some Opcode.returnValue.toByte ∧ m'.stack = []

/-- A frame stands at the beginning of an instruction. -/
theorem Program.Stands.begins {p : Program} {code : Bytecode} (emitted : p.Emitted code) {f : Frame}
    {s : Shape} (h : p.Stands f s) : f.Begins code := by
  obtain ⟨before, i, after, unit, ip, -⟩ := h
  exact ⟨Instruction.span before, by omega, Code.begins_of_bytes (emitted.unit _ _ unit)⟩

/-- A frame never stands above three values. -/
theorem Program.Stands.low {p : Program} {f : Frame} {s : Shape} (h : p.Stands f s) :
    s.height ≤ 3 := by
  obtain ⟨before, i, after, -, -, reached⟩ := h
  refine Shape.height_le_of_climbAll ?_ reached
  cases f.unit <;> exact Nat.zero_le _

namespace Machine

variable {σ : Type} [Host σ] {p : Program} {code : Bytecode} {m : Machine} {host : σ}

/-- A procedure is entered with an empty stack. -/
theorem InOrder.entered (order : m.InOrder p) (procedure : m.frame.unit ≠ none)
    (start : m.frame.ip = -1) : m.stack = [] := by
  obtain ⟨before, i, after, -, ip, reached⟩ := order.stands
  -- Every instruction has a byte, so nothing stands before the first position.
  have none : before = [] := by
    cases before with
    | nil => rfl
    | cons j before =>
      rw [start, Instruction.span_cons, Instruction.size] at ip
      omega
  subst none
  have height := congrArg Shape.height (Option.some.inj reached)
  cases unit : m.frame.unit with
  | none => exact absurd unit procedure
  | some id =>
    rw [unit] at height
    exact List.eq_nil_of_length_eq_zero height.symm

theorem toByte_inj {a b : Opcode} (h : a.toByte = b.toByte) : a = b := by
  have decoded := congrArg Opcode.ofByte? h
  rw [Opcode.ofByte?_toByte, Opcode.ofByte?_toByte] at decoded
  exact Option.some.inj decoded

/-- A procedure is left with an empty stack. -/
theorem InOrder.leaving (emitted : p.Emitted code) (short : code.Short) (served : p.Served)
    (order : m.InOrder p) {position : Nat} (next : m.frame.ip + 1 = position)
    (leave : (code.unit m.frame.unit)[position]? = some Opcode.leave.toByte) : m.stack = [] := by
  obtain ⟨before, i, after, body, here⟩ := order.place emitted short served
  have found := Code.getElem?_of_bytes (emitted.unit _ _ here.unit)
  have same : Instruction.span before = position := by
    have := here.ip
    omega
  rw [same, leave] at found
  have opcode := toByte_inj (Option.some.inj found)
  obtain rfl : i = .leave := by
    cases i <;> first | rfl | cases opcode
  have height := congrArg Shape.height (here.after_eq_home rfl)
  rw [p.height_home] at height
  exact List.eq_nil_of_length_eq_zero height

/-- A machine in order is safe. -/
theorem InOrder.safe (emitted : p.Emitted code) (short : code.Short) (served : p.Served)
    (order : m.InOrder p) (host : σ) : m.Safe code host := by
  have proper := step_inOrder emitted short served order host
  refine ⟨?_, order.stands.low, order.entered, fun _ => order.leaving emitted short served, ?_,
    ?_, ?_⟩
  · intro f hf
    rcases List.mem_cons.1 hf with rfl | hf
    · exact order.stands.begins emitted
    · exact (order.waiting f hf).begins emitted
  · intro how left broken
    rw [broken] at proper
    exact proper
  · intro cause m' left fault
    rw [fault] at proper
    exact proper
  · intro result m' left halt
    rw [halt] at proper
    exact proper

/-! ## Runs -/

/-- The step with which steps come to an end. -/
def Stop.last? : Stop σ → Option (Step σ)
  | .halt result m host => some (.halt result m host)
  | .fault cause m host => some (.fault cause m host)
  | .broken how host => some (.broken how host)
  | .unfinished => none

/-- A run that is over has come to its last step. -/
theorem reaches_of_steps {limit : Nat} {last : Step σ}
    (h : (steps code limit m host).last? = some last) :
    ∃ n m' host', Reaches code n (m, host) (m', host') ∧ m'.step code host' = last := by
  induction limit generalizing m host with
  | zero => cases h
  | succ limit ih =>
    rw [steps] at h
    cases step : m.step code host with
    | next m' host' =>
      rw [step] at h
      obtain ⟨n, d, host'', reached, final⟩ := ih h
      exact ⟨n + 1, d, host'', .head step reached, final⟩
    | halt _ _ _ | fault _ _ _ | broken _ _ =>
      rw [step] at h
      cases h
      exact ⟨0, m, host, .refl _, step⟩

/-- How a run may end: with a fault of the program or its host, or after a step that gives the
result; never with a broken machine. -/
def Ending.Proper (code : Bytecode) (host : σ) : Ending σ → Prop
  | .done report m _ =>
    (∀ f, report.fault = some f → f.cause.IsOwn) ∧
      (report.fault = none → ∃ n d before behind, Reaches code n ({}, host) (d, before) ∧
        d.step code before = .halt report.result m behind)
  | .broken .. => False
  | .unfinished => True

/-- Runs end as they may when the machine is safe wherever it comes. -/
theorem run_proper (safe : ∀ n d left, Reaches code n ({}, host) (d, left) → d.Safe code left)
    (limit : Nat) : (({} : Machine).run code limit host).Proper code host := by
  unfold run
  cases stopped : steps code limit {} host with
  | unfinished => trivial
  | broken how left =>
    obtain ⟨n, d, before, reached, step⟩ := reaches_of_steps (congrArg Stop.last? stopped)
    exact (safe n d before reached).whole how left step
  | fault cause m left =>
    obtain ⟨n, d, before, reached, step⟩ := reaches_of_steps (congrArg Stop.last? stopped)
    refine ⟨?_, nofun⟩
    rintro f ⟨⟩
    exact ((safe n d before reached).faults cause m left step).1
  | halt result m left =>
    obtain ⟨n, d, before, reached, step⟩ := reaches_of_steps (congrArg Stop.last? stopped)
    simp only [finish]
    split
    · -- What was written could not be sent on, which is the fault of the run.
      refine ⟨?_, nofun⟩
      rintro f ⟨⟩
      exact Fault.Cause.isOwn_of_kind (by simp [Fault.Cause.kind])
    · exact ⟨nofun, fun _ => ⟨n, d, before, left, reached, step⟩⟩

end Machine

/-- Code that is safe to run on a new machine in front of a host: the machine is safe wherever it
comes, and runs end as they may. -/
structure Bytecode.Safe {σ : Type} [Host σ] (code : Bytecode) (host : σ) : Prop where
  states : ∀ n m left, Machine.Reaches code n ({}, host) (m, left) → m.Safe code left
  runs : ∀ limit, (({} : Machine).run code limit host).Proper code host

/-- **Built programs never go wrong inside the machine.** What is built from a source is safe to
run, whatever the host does: no run breaks the machine, none fails for want of a table, of a valid
opcode or of room on the operand stack, and one that does not fail ends at the last byte of the main
unit. -/
theorem build_safe {σ : Type} [Host σ] {source : List UInt8} {code : Bytecode}
    (built : build source = .ok code) (short : code.Short) (host : σ) : code.Safe host := by
  obtain ⟨p, read, compiled⟩ := exists_of_build built
  have emitted := Program.emitted_of_compile compiled
  have served := Program.served_of_parse read
  have safe (n : Nat) (m : Machine) (left : σ)
      (reached : Machine.Reaches code n ({}, host) (m, left)) : m.Safe code left := by
    have order := Machine.InOrder.of_reaches emitted short served reached (Machine.inOrder_new p)
    exact order.safe emitted short served left
  exact ⟨safe, Machine.run_proper safe⟩

/-- A procedure with a loop that calls itself, in front of a host that can not read. -/
theorem build_safe_of_recursion :
    ∃ code, build "+(,[->+<]:).:".toUTF8.toList = .ok code ∧ code.Short ∧
      code.Safe ({ reads := [.error "closed"] } : Host.Script) := by
  have read : Program.parse "+(,[->+<]:).:".toUTF8.toList =
      .ok { main := [.amend 1, .register 0, .write, .call]
            procedures := [⟨0, [.read, .loop [.amend (-1), .move 1, .amend 1, .move (-1)], .call]⟩]
            calls := 2 } := by
    cbv
  have built : ∃ code, build "+(,[->+<]:).:".toUTF8.toList = .ok code ∧ code.Short := by
    rw [build, buildFor, read]
    exact ⟨_, rfl, by decide, by decide⟩
  obtain ⟨code, built, short⟩ := built
  exact ⟨code, built, short, build_safe built short _⟩

end TapeLang
