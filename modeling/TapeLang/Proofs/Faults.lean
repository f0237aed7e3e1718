/-
# What a fault leaves

An instruction that fails may have taken values from the operand stack and asked the host before it
stops, and no more than that: the tape, the registers, the table and the frames are as they were.
This holds for any code, in every state in which a machine can be, so a run that goes on after a
fault finds what the program had before.

`Machine.Fails` lists the ways in which instructions fail, each with its cause, its condition and
the operand stack that it leaves. A machine that fails is otherwise the same
(`Machine.exists_fails_of_execute`), from which follows what a step leaves that ends in a fault:
`Machine.Active.spared_of_fault`.
-/
import TapeLang.Proofs.Containment
import TapeLang.Proofs.Dispatch

namespace TapeLang

namespace Machine

variable {σ : Type} {m m' : Machine} {host left : σ} {cause : Fault.Cause}

/-! ## The ways to fail -/

/-- How an instruction fails on a machine: its cause, and the operand stack that is left. -/
inductive Fails [Host σ] (code : Bytecode) (m : Machine) (host : σ) :
    Instruction → Fault.Cause → List Int32 → Prop
  | full {i : Instruction} : i.pops = 0 → i.pushes = 1 → m.stack.length = stackLimit →
      Fails code m host i .operandStack m.stack
  | load {index : Int32} {rest : List Int32} : m.stack = index :: rest → m.cell? index = none →
      Fails code m host .loadCell (.tapeBounds index m.tape.size) rest
  | store {value index : Int32} {rest : List Int32} :
      m.stack = value :: index :: rest → m.cell? index = none →
      Fails code m host .storeCell (.tapeBounds index m.tape.size) rest
  | read {reason : String} {left : σ} : Host.read host = (.error reason, left) →
      Fails code m host .read (.read reason) m.stack
  | write {value : Int32} {rest : List Int32} {reason : String} {left : σ} :
      m.stack = value :: rest → Host.write value host = (.error reason, left) →
      Fails code m host .write (.write reason) rest
  | defineWithoutTable {handle key : Int32} {rest : List Int32} : m.stack = handle :: key :: rest →
      m.table = none → Fails code m host .register .definitionWithoutTable rest
  | collide {handle key : Int32} {rest : List Int32} {bound : Handle} :
      m.stack = handle :: key :: rest → m.bound key = some bound →
      Fails code m host .register (.keyCollision ⟨handle.toInt⟩ ⟨key, bound⟩) rest
  | callWithoutTable {key : Int32} {rest : List Int32} : m.stack = key :: rest → m.table = none →
      Fails code m host .lookup .callWithoutTable rest
  | unregistered {handle : Int32} {rest : List Int32} {table : Table} : m.stack = handle :: rest →
      m.table = some table → ¬ (0 ≤ handle.toInt ∧ handle.toInt < code.procedures.size) →
      Fails code m host .invoke (.unregisteredCall m.lastKey table.keys) rest
  | deep {handle : Int32} {rest : List Int32} : m.stack = handle :: rest →
      Fault.maxFrames ≤ m.depth → Fails code m host .invoke .callDepth rest

/-- Failing takes no more than values from the top of the operand stack. -/
theorem Fails.suffix [Host σ] {code : Bytecode} {i : Instruction} {stack : List Int32}
    (h : m.Fails code host i cause stack) : stack <:+ m.stack := by
  cases h with
  | full | read => exact List.suffix_refl _
  | load top | write top | callWithoutTable top | unregistered top | deep top =>
    rw [top]
    exact List.suffix_cons _ _
  | store top | defineWithoutTable top | collide top =>
    rw [top]
    exact (List.suffix_cons _ _).trans (List.suffix_cons _ _)

/-- A value that is pushed needs room. -/
theorem of_push_fault {value : Int32} (h : m.push value host = .fault cause m' left) :
    stackLimit ≤ m.stack.length ∧ cause = .operandStack ∧ m' = m := by
  unfold push at h
  split at h
  · cases h
  · next full =>
    cases h
    exact ⟨Nat.le_of_not_lt full, rfl, rfl⟩

/-- Where there is room for a value, a cell can not be loaded only if it is not on the tape. -/
theorem of_loadCell_fault {index : Int32} (room : m.stack.length < stackLimit)
    (h : m.loadCell index host = .fault cause m' left) :
    m.cell? index = none ∧ cause = .tapeBounds index m.tape.size ∧ m' = m := by
  unfold loadCell at h
  split at h
  · exact absurd (of_push_fault h).1 (Nat.not_le_of_lt room)
  · next none =>
    cases h
    exact ⟨none, rfl, rfl⟩

/-- Changing a cell fails outside the tape only, and changes nothing then. -/
theorem of_storeCell_fault {index value : Int32}
    (h : m.storeCell index value host = .fault cause m' left) :
    m.cell? index = none ∧ cause = .tapeBounds index m.tape.size ∧ m' = m := by
  unfold storeCell at h
  split at h
  · cases h
  · next none =>
    cases h
    exact ⟨none, rfl, rfl⟩

/-- A binding is refused without a table, or if the key is bound. -/
theorem of_bind_fault {key : Int32} {handle : Handle}
    (h : m.bind key handle host = .fault cause m' left) :
    m' = m ∧ (m.table = none ∧ cause = .definitionWithoutTable ∨
      ∃ bound, m.bound key = some bound ∧ cause = .keyCollision handle ⟨key, bound⟩) := by
  unfold bind at h
  split at h
  · next none =>
    cases h
    exact ⟨rfl, .inl ⟨none, rfl⟩⟩
  · next table found =>
    split at h
    · cases h
    · next collision refused =>
      cases h
      refine ⟨rfl, .inr ?_⟩
      unfold Table.register at refused
      split at refused
      · next bound taken =>
        cases refused
        exact ⟨bound, by rw [Machine.bound, found, Option.bind_some, taken], rfl⟩
      · cases refused

/-- Where there is room for a value, a key can not be looked up only without a table. -/
theorem of_find_fault {key : Int32} (room : m.stack.length < stackLimit)
    (h : m.find key host = .fault cause m' left) :
    m.table = none ∧ cause = .callWithoutTable ∧ m' = m := by
  unfold find at h
  split at h
  · next none =>
    cases h
    exact ⟨none, rfl, rfl⟩
  · exact absurd (of_push_fault h).1 (Nat.not_le_of_lt room)

/-- A call fails for its depth or for want of a registration, and changes nothing then. -/
theorem of_invoke_fault {procedures : Nat} {handle : Int32}
    (h : m.invoke procedures handle host = .fault cause m' left) :
    m' = m ∧ (Fault.maxFrames ≤ m.depth ∧ cause = .callDepth ∨
      ∃ table, m.table = some table ∧ ¬ (0 ≤ handle.toInt ∧ handle.toInt < procedures) ∧
        cause = .unregisteredCall m.lastKey table.keys) := by
  unfold invoke at h
  split at h
  · unfold call at h
    split at h
    · cases h
    · next deep =>
      cases h
      exact ⟨rfl, .inl ⟨Nat.le_of_not_lt deep, rfl⟩⟩
  · next unknown =>
    split at h
    · cases h
    · next table found =>
      cases h
      exact ⟨rfl, .inr ⟨table, found, unknown, rfl⟩⟩

variable [Host σ] {code : Bytecode} {i : Instruction}

/-- A machine that fails at an instruction does so in one of the ways listed, and only its operand
stack may have changed. -/
theorem exists_fails_of_execute (low : m.stack.length ≤ stackLimit)
    (fault : m.execute code host i = .fault cause m' left) :
    ∃ stack, m.Fails code host i cause stack ∧ m' = { m with stack := stack } := by
  have pushed (value : Int32) (none : i.pops = 0) (one : i.pushes = 1) {host : σ}
      (h : m.push value host = .fault cause m' left) (host' : σ) :
      ∃ stack, m.Fails code host' i cause stack ∧ m' = { m with stack := stack } := by
    obtain ⟨full, rfl, rfl⟩ := of_push_fault h
    exact ⟨m'.stack, .full none one (Nat.le_antisymm low full), rfl⟩
  -- Where a value has been taken, there is room for one.
  have room {value : Int32} {rest : List Int32} (top : m.stack = value :: rest) :
      rest.length < stackLimit := by
    rw [top, List.length_cons] at low
    omega
  cases i with
  | newTape | newTable | loop => cases fault
  | constant | loadPointer | loadScratch | procedure => exact pushed _ rfl rfl fault host
  | storePointer | storeScratch | jumpZero | returnValue =>
    simp only [execute] at fault
    split at fault <;> cases fault
  | leave =>
    simp only [execute] at fault
    split at fault <;> cases fault
  | loadCell =>
    simp only [execute] at fault
    split at fault
    · next index rest top =>
      obtain ⟨none, rfl, rfl⟩ := of_loadCell_fault (m := { m with stack := rest }) (room top) fault
      exact ⟨rest, .load top none, rfl⟩
    · cases fault
  | storeCell =>
    simp only [execute] at fault
    split at fault
    · next value index rest top =>
      obtain ⟨none, rfl, rfl⟩ := of_storeCell_fault (m := { m with stack := rest }) fault
      exact ⟨rest, .store top none, rfl⟩
    · cases fault
  | add | sub =>
    simp only [execute] at fault
    split at fault
    · next b a rest top =>
      have below : rest.length < stackLimit := Nat.lt_of_succ_lt (room top)
      exact absurd (of_push_fault fault).1 (Nat.not_le_of_lt below)
    · cases fault
  | read =>
    simp only [execute] at fault
    split at fault
    · exact pushed _ rfl rfl fault host
    · next reason left' answer =>
      cases fault
      exact ⟨m.stack, .read answer, rfl⟩
  | write =>
    simp only [execute] at fault
    split at fault
    · next value rest top =>
      split at fault
      · cases fault
      · next reason left' answer =>
        cases fault
        exact ⟨rest, .write top answer, rfl⟩
    · cases fault
  | register =>
    simp only [execute] at fault
    split at fault
    · next handle key rest top =>
      obtain ⟨rfl, ⟨none, rfl⟩ | ⟨bound, taken, rfl⟩⟩ :=
        of_bind_fault (m := { m with stack := rest }) fault
      · exact ⟨rest, .defineWithoutTable top none, rfl⟩
      · exact ⟨rest, .collide top taken, rfl⟩
    · cases fault
  | lookup =>
    simp only [execute] at fault
    split at fault
    · next key rest top =>
      obtain ⟨none, rfl, rfl⟩ := of_find_fault (m := { m with stack := rest }) (room top) fault
      exact ⟨rest, .callWithoutTable top none, rfl⟩
    · cases fault
  | invoke =>
    simp only [execute] at fault
    split at fault
    · next handle rest top =>
      obtain ⟨rfl, ⟨deep, rfl⟩ | ⟨table, found, unknown, rfl⟩⟩ :=
        of_invoke_fault (m := { m with stack := rest }) fault
      · exact ⟨rest, .deep top deep, rfl⟩
      · exact ⟨rest, .unregistered top found unknown, rfl⟩
    · cases fault

/-! ## What is left -/

/-- One machine has the storage and the frames of another, and of its operand stack what is left
below some values. -/
structure Spared (m m' : Machine) : Prop where
  tape : m'.tape = m.tape
  pointer : m'.pointer = m.pointer
  scratch : m'.scratch = m.scratch
  table : m'.table = m.table
  lastKey : m'.lastKey = m.lastKey
  /-- The same units are active, and the frames that wait are the same. -/
  depth : m'.depth = m.depth
  unit : m'.frame.unit = m.frame.unit
  callers : m'.callers = m.callers
  stack : m'.stack <:+ m.stack

omit [Host σ] in
theorem spared_setIp (m : Machine) (ip : Int) {stack : List Int32} (suffix : stack <:+ m.stack) :
    m.Spared { m.setIp ip with stack := stack } :=
  ⟨rfl, rfl, rfl, rfl, rfl, rfl, rfl, rfl, suffix⟩

/-- A step fails at a byte that begins no instruction, or at an instruction that fails. -/
theorem exists_of_step_fault (low : m.stack.length ≤ stackLimit)
    (fault : m.step code host = .fault cause m' left) :
    (∃ b position, m.fetch code = .unknown b position ∧ cause = .unknownOpcode b ∧
      m' = m.setIp position) ∨
      ∃ i position stack, m.fetch code = .instruction i position ∧
        (m.setIp (lastByte position i.opcode)).Fails code host i cause stack ∧
        m' = { m.setIp (lastByte position i.opcode) with stack := stack } := by
  rw [step_eq_of_fetch] at fault
  cases found : m.fetch code with
  | before | ended | cut _ _ =>
    rw [found] at fault
    cases fault
  | unknown b position =>
    rw [found] at fault
    cases fault
    exact .inl ⟨b, position, rfl, rfl, rfl⟩
  | instruction i position =>
    rw [found] at fault
    obtain ⟨stack, fails, same⟩ :=
      exists_fails_of_execute (m := m.setIp (lastByte position i.opcode)) low fault
    exact .inr ⟨i, position, stack, rfl, fails, same⟩

/-- A step that fails spares the machine. -/
theorem spared_of_step_fault (low : m.stack.length ≤ stackLimit)
    (fault : m.step code host = .fault cause m' left) : m.Spared m' := by
  rcases exists_of_step_fault low fault with ⟨b, position, -, -, rfl⟩ |
    ⟨i, position, stack, -, fails, rfl⟩
  · exact spared_setIp m position (List.suffix_refl _)
  · exact spared_setIp m (lastByte position i.opcode) fails.suffix

/-- The key of a collision is bound, as the collision says. -/
theorem bound_of_collision (low : m.stack.length ≤ stackLimit) {handle : Handle}
    {collision : Table.Collision}
    (fault : m.step code host = .fault (.keyCollision handle collision) m' left) :
    m.bound collision.key = some collision.bound := by
  rcases exists_of_step_fault low fault with ⟨b, position, -, cause, -⟩ |
    ⟨i, position, stack, -, fails, -⟩
  · cases cause
  · cases fails with
    | collide top taken => exact taken

/-- **A fault leaves the storage alone.** Whatever the code is, wherever runs have brought a
machine, and whatever the host does: if a step ends in a fault of any kind, the tape, the pointer,
the scratch cell, the table and the last key are as before the step, the same units are active, with
the same frames waiting, and the operand stack is what is left below the values that the instruction
has taken. A key that collides is bound as before. -/
theorem Active.spared_of_fault (active : Active code m host)
    (fault : m.step code host = .fault cause m' left) :
    m.Spared m' ∧ ∀ handle collision, cause = .keyCollision handle collision →
      m.bound collision.key = some collision.bound ∧
      m'.bound collision.key = some collision.bound := by
  have low := active.bounded.stack
  have spared := spared_of_step_fault low fault
  refine ⟨spared, ?_⟩
  rintro handle collision rfl
  have bound := bound_of_collision low fault
  exact ⟨bound, by rwa [Machine.bound, spared.table]⟩

/-- Of two more registrations of the key seven, the first one ends a run, and the second one the run
that goes on behind it. -/
theorem Active.spared_of_collision :
    let code : Bytecode := {
      main :=
        #[1, 8, 0, 0, 0, 7, 15, 0, 0, 16, 8, 0, 0, 0, 7, 15, 0, 1, 16, 8, 0, 0, 0, 7, 15, 0, 2, 16]
      procedures := #[#[19], #[19], #[19]] }
    ∃ m m' : Machine, Active code m Host.Silent.silent ∧
      m.step code Host.Silent.silent = .fault (.keyCollision ⟨2⟩ ⟨7, ⟨0⟩⟩) m' .silent ∧
      m.Spared m' ∧ m'.bound 7 = some ⟨0⟩ := by
  intro code
  let table : Table := ⟨Table.empty.bindings.insert 7 ⟨0⟩⟩
  let stopped : Machine := { table := some table, frame := { ip := 18 } }
  let pushed : Machine := { table := some table, stack := [7], frame := { ip := 23 } }
  let ready : Machine := { table := some table, stack := [2, 7], frame := { ip := 26 } }
  have ended : ({} : Machine).run code 10 Host.Silent.silent =
      .done ⟨0, some ⟨.keyCollision ⟨1⟩ ⟨7, ⟨0⟩⟩, [⟨.missing, 18⟩]⟩⟩ stopped .silent := by
    cbv
  have key : stopped.step code Host.Silent.silent = .next pushed .silent := by cbv
  have handle : pushed.step code Host.Silent.silent = .next ready .silent := by cbv
  have fault : ready.step code Host.Silent.silent = .fault (.keyCollision ⟨2⟩ ⟨7, ⟨0⟩⟩)
      { table := some table, frame := { ip := 27 } } .silent := by
    cbv
  have new : Active code {} Host.Silent.silent := .new Host.Silent.silent
  have again : Active code stopped Host.Silent.silent := .again .silent new ended
  have active : Active code ready Host.Silent.silent := .step (again.step key) handle
  obtain ⟨spared, bound⟩ := active.spared_of_fault fault
  exact ⟨ready, _, active, fault, spared, (bound _ _ rfl).2⟩

end Machine

end TapeLang
