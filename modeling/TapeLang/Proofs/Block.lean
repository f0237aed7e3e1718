/-
# Straight code

Instructions that neither jump nor call nor return do not look at where the machine stands, so a
list of them can be executed by itself, without positions: `Machine.executeAll`. Standing at such a
list in a unit, the machine does the same step by step: `Machine.reaches_of_executeAll` and
`Machine.reaches_of_executeAll_fault`.

The code of a node that holds no others is of this form, and does what the node means:
`Machine.executeAll_leafCode`.
-/
import TapeLang.Program.Code
import TapeLang.Proofs.Evaluation
import TapeLang.Proofs.Fetch

namespace TapeLang

/-- Changes the machine that a step leaves. -/
def Step.map {σ : Type} (f : Machine → Machine) : Step σ → Step σ
  | .next m host => .next (f m) host
  | .halt result m host => .halt result (f m) host
  | .fault cause m host => .fault cause (f m) host
  | .broken how host => .broken how host

namespace Machine

variable {σ : Type} [Host σ]

/-! ## Execution without positions -/

/-- Executes instructions one after another wherever the machine stands. -/
def executeAll (code : Bytecode) : List Instruction → Machine → σ → Step σ
  | [], m, host => .next m host
  | i :: is, m, host =>
    match m.execute code host i.stored with
    | .next m host => executeAll code is m host
    | stopped => stopped

variable {code : Bytecode} {unit : Option Nat} {base : Nat} {is : List Instruction}

/-- After an instruction that goes on, the others are executed where it ends. -/
theorem executeAll_of_next {i : Instruction} {m m' : Machine} {host host' : σ}
    (first : m.execute code host i.stored = .next m' host') :
    executeAll code (i :: is) m host = executeAll code is m' host' := by
  rw [executeAll, first]

/-- A fault of the first instruction is that of all. -/
theorem executeAll_of_fault {i : Instruction} {m m' : Machine} {host host' : σ}
    {cause : Fault.Cause} (first : m.execute code host i.stored = .fault cause m' host') :
    executeAll code (i :: is) m host = .fault cause m' host' := by
  rw [executeAll, first]

/-- Instructions that all go on do so one after another. -/
theorem executeAll_cons_next {i : Instruction} {m m' : Machine} {host host' : σ}
    (done : executeAll code (i :: is) m host = .next m' host') :
    ∃ m₁ host₁, m.execute code host i.stored = .next m₁ host₁ ∧
      executeAll code is m₁ host₁ = .next m' host' := by
  rw [executeAll] at done
  cases first : m.execute code host i.stored with
  | next m₁ host₁ => exact ⟨m₁, host₁, rfl, by simpa only [first] using done⟩
  | halt _ _ _ | fault _ _ _ | broken _ _ =>
    rw [first] at done
    cases done

/-! ### Where the machine stands makes no difference -/

omit [Host σ] in
/-- Pushing a value does not depend on where the machine stands. -/
theorem push_stand (m : Machine) (value : Int32) (host : σ) :
    (m.stand unit base).push value host = (m.push value host).map (·.stand unit base) := by
  have same : (m.stand unit base).stack = m.stack := rfl
  by_cases room : m.stack.length < stackLimit
  · simp only [push, same, room, if_true]
    rfl
  · simp only [push, same, room, if_false]
    rfl

omit [Host σ] in
/-- Reading a cell does not depend on where the machine stands. -/
theorem loadCell_stand (m : Machine) (index : Int32) (host : σ) :
    (m.stand unit base).loadCell index host = (m.loadCell index host).map (·.stand unit base) := by
  cases found : m.cell? index with
  | none =>
    have found' : (m.stand unit base).cell? index = none := found
    simp only [loadCell, found, found']
    rfl
  | some i =>
    have found' : (m.stand unit base).cell? index = some i := found
    simp only [loadCell, found, found']
    exact push_stand m _ host

omit [Host σ] in
/-- Changing a cell does not depend on where the machine stands. -/
theorem storeCell_stand (m : Machine) (index value : Int32) (host : σ) :
    (m.stand unit base).storeCell index value host =
      (m.storeCell index value host).map (·.stand unit base) := by
  cases found : m.cell? index with
  | none =>
    have found' : (m.stand unit base).cell? index = none := found
    simp only [storeCell, found, found']
    rfl
  | some i =>
    have found' : (m.stand unit base).cell? index = some i := found
    simp only [storeCell, found, found']
    rfl

omit [Host σ] in
/-- Binding a key does not depend on where the machine stands. -/
theorem bind_stand (m : Machine) (key : Int32) (handle : Handle) (host : σ) :
    (m.stand unit base).bind key handle host =
      (m.bind key handle host).map (·.stand unit base) := by
  have same : (m.stand unit base).table = m.table := rfl
  simp only [bind, same]
  cases m.table with
  | none => rfl
  | some table =>
    dsimp only
    cases table.register key handle <;> rfl

omit [Host σ] in
/-- Looking a key up does not depend on where the machine stands. -/
theorem find_stand (m : Machine) (key : Int32) (host : σ) :
    (m.stand unit base).find key host = (m.find key host).map (·.stand unit base) := by
  cases found : m.table with
  | none =>
    have found' : (m.stand unit base).table = none := found
    simp only [find, found, found']
    rfl
  | some table =>
    have found' : (m.stand unit base).table = some table := found
    simp only [find, found, found']
    exact push_stand { m with table := some table, lastKey := key } _ host

/-- Straight instructions do not look at the position of the machine. -/
theorem execute_stand {i : Instruction} (straight : i.isStraight = true) (m : Machine) (host : σ) :
    (m.stand unit base).execute code host i = (m.execute code host i).map (·.stand unit base) := by
  have same : (m.stand unit base).stack = m.stack := rfl
  cases i with
  | jumpZero | loop | invoke | leave | returnValue => simp [Instruction.isStraight] at straight
  | newTape | newTable => rfl
  | constant | loadPointer | loadScratch | procedure => exact push_stand m _ host
  | storePointer | storeScratch =>
    simp only [execute, same]
    cases m.stack <;> rfl
  | loadCell =>
    simp only [execute, same]
    cases m.stack with
    | nil => rfl
    | cons index stack => exact loadCell_stand { m with stack := stack } index host
  | storeCell =>
    simp only [execute, same]
    rcases m.stack with _ | ⟨value, _ | ⟨index, stack⟩⟩
    · rfl
    · rfl
    · exact storeCell_stand { m with stack := stack } index value host
  | add | sub =>
    simp only [execute, same]
    rcases m.stack with _ | ⟨b, _ | ⟨a, stack⟩⟩
    · rfl
    · rfl
    · exact push_stand { m with stack := stack } _ host
  | read =>
    simp only [execute]
    rcases Host.read host with ⟨_ | value, host'⟩
    · rfl
    · exact push_stand m value host'
  | write =>
    simp only [execute, same]
    cases m.stack with
    | nil => rfl
    | cons value stack =>
      dsimp only
      rcases Host.write value host with ⟨_ | _, host'⟩ <;> rfl
  | register =>
    simp only [execute, same]
    rcases m.stack with _ | ⟨handle, _ | ⟨key, stack⟩⟩
    · rfl
    · rfl
    · exact bind_stand { m with stack := stack } key _ host
  | lookup =>
    simp only [execute, same]
    cases m.stack with
    | nil => rfl
    | cons key stack => exact find_stand { m with stack := stack } key host

/-! ### Step by step -/

/-- A step at an instruction that goes on with the next one executes it and stands behind it. -/
theorem step_straight {i : Instruction} (here : code.Has unit base (i :: is))
    (straight : i.isStraight = true) (m : Machine) (host : σ) :
    (m.stand unit base).step code host =
      (m.execute code host i.stored).map (·.stand unit (base + i.size)) := by
  have forward : i.opcode ≠ .loop := by
    intro back
    cases i <;> simp_all [Instruction.opcode, Instruction.isStraight]
  have stored : i.stored.isStraight = true := by rw [Instruction.isStraight_stored, straight]
  rw [step_of_has here forward, execute_stand stored]

/-- A machine that stands at straight code goes through it. -/
theorem reaches_of_executeAll (here : code.Has unit base is)
    (straight : ∀ i ∈ is, i.isStraight = true) {m m' : Machine} {host host' : σ}
    (done : executeAll code is m host = .next m' host') :
    Reaches code is.length (m.stand unit base, host)
      (m'.stand unit (base + Instruction.span is), host') := by
  induction is generalizing base m host with
  | nil =>
    cases done
    exact .refl _
  | cons i is ih =>
    obtain ⟨m₁, host₁, first, rest⟩ := executeAll_cons_next done
    have step := step_straight here (straight i List.mem_cons_self) m host
    rw [first] at step
    have more := ih here.tail (fun j member => straight j (List.mem_cons_of_mem _ member)) rest
    rw [Nat.add_assoc] at more
    exact .head step more

/-- A machine that stands at straight code comes to the fault in it. -/
theorem reaches_of_executeAll_fault (here : code.Has unit base is)
    (straight : ∀ i ∈ is, i.isStraight = true) {m m' : Machine} {host host' : σ}
    {cause : Fault.Cause} (done : executeAll code is m host = .fault cause m' host') :
    ∃ k m₁ host₁ position, Reaches code k (m.stand unit base, host) (m₁, host₁) ∧
      m₁.step code host₁ = .fault cause (m'.stand unit position) host' := by
  induction is generalizing base m host with
  | nil => cases done
  | cons i is ih =>
    have step := step_straight here (straight i List.mem_cons_self) m host
    rw [executeAll] at done
    cases first : m.execute code host i.stored with
    | next m₁ host₁ =>
      rw [first] at step done
      obtain ⟨k, m₂, host₂, position, more, stop⟩ :=
        ih here.tail (fun j member => straight j (List.mem_cons_of_mem _ member)) done
      exact ⟨k + 1, m₂, host₂, position, .head step more, stop⟩
    | fault _ _ _ =>
      rw [first] at step done
      cases done
      exact ⟨0, _, _, _, .refl _, step⟩
    | halt _ _ _ | broken _ _ =>
      rw [first] at done
      cases done

end Machine

/-! ## Stores in a machine -/

/-- The machine that works on a store. -/
def Store.machine (s : Store) (stack : List Int32) (callers : List Frame) : Machine where
  tape := s.tape.toArray
  pointer := s.pointer
  scratch := s.scratch
  table := s.registry.map Registry.table
  lastKey := s.lastKey
  stack := stack
  callers := callers

/-- The storage of a machine is a store. -/
structure Machine.Keeps (m : Machine) (s : Store) : Prop where
  tape : m.tape = s.tape.toArray
  pointer : m.pointer = s.pointer
  scratch : m.scratch = s.scratch
  table : m.table = s.registry.map Registry.table
  lastKey : m.lastKey = s.lastKey

/-- The machine that works on a store keeps it. -/
theorem Store.machine_keeps (s : Store) (stack : List Int32) (callers : List Frame) :
    (s.machine stack callers).Keeps s :=
  ⟨rfl, rfl, rfl, rfl, rfl⟩

/-- Moving the machine to another place keeps its store. -/
theorem Machine.Keeps.stand {m : Machine} {s : Store} (h : m.Keeps s) (unit : Option Nat)
    (position : Nat) : (m.stand unit position).Keeps s :=
  ⟨h.tape, h.pointer, h.scratch, h.table, h.lastKey⟩

namespace Store

variable {σ : Type} {s : Store} {stack : List Int32} {callers : List Frame} {i : Fin 30000}

/-- On the tape, the cell of the machine is that of the store. -/
theorem cell?_machine (found : s.position? = some i) :
    (s.machine stack callers).cell? s.pointer = some ⟨i, by simp [machine]⟩ := by
  unfold position? at found
  split at found
  · next inside =>
    cases found
    have size : (s.machine stack callers).tape.size = 30000 := s.tape.size_toArray
    rw [Machine.cell?, dif_pos ⟨inside.1, by omega⟩]
  · cases found

/-- Outside the tape, the machine has no cell. -/
theorem cell?_machine_outside (found : s.position? = none) :
    (s.machine stack callers).cell? s.pointer = none := by
  unfold position? at found
  split at found
  · cases found
  · next outside =>
    have size : (s.machine stack callers).tape.size = 30000 := s.tape.size_toArray
    rw [Machine.cell?, dif_neg (by omega)]

/-- On the tape, the machine reads the cell of the store. -/
theorem loadCell_machine (found : s.position? = some i) (host : σ) :
    (s.machine stack callers).loadCell s.pointer host =
      (s.machine stack callers).push (s.cell i) host := by
  rw [Machine.loadCell, cell?_machine found]
  rfl

/-- Outside the tape, reading a cell is a fault that leaves the store. -/
theorem loadCell_machine_outside (found : s.position? = none) (host : σ) :
    (s.machine stack callers).loadCell s.pointer host =
      .fault s.outside (s.machine stack callers) host := by
  have size : (s.machine stack callers).tape.size = 30000 := s.tape.size_toArray
  rw [Machine.loadCell, cell?_machine_outside found]
  dsimp only
  rw [size]
  rfl

/-- On the tape, the machine changes the cell of the store. -/
theorem storeCell_machine (found : s.position? = some i) (value : Int32) (host : σ) :
    (s.machine stack callers).storeCell s.pointer value host =
      .next ((s.setCell i value).machine stack callers) host := by
  rw [Machine.storeCell, cell?_machine found]
  rfl

/-- Outside the tape, changing a cell is a fault that leaves the store. -/
theorem storeCell_machine_outside (found : s.position? = none) (value : Int32) (host : σ) :
    (s.machine stack callers).storeCell s.pointer value host =
      .fault s.outside (s.machine stack callers) host := by
  have size : (s.machine stack callers).tape.size = 30000 := s.tape.size_toArray
  rw [Machine.storeCell, cell?_machine_outside found]
  dsimp only
  rw [size]
  rfl

theorem push_machine (room : stack.length < Machine.stackLimit) (value : Int32) (host : σ) :
    (s.machine stack callers).push value host = .next (s.machine (value :: stack) callers) host :=
  if_pos room

end Store

/-! ## The code of single nodes -/

theorem Word.ofInt_four (n : Int) : Word.ofInt 4 n = (n % 0x100000000).toNat := rfl

/-- An integer cut down to four bytes is the word of the integer. -/
theorem Word.toInt32_ofInt (n : Int) : (Word.ofInt 4 n).toUInt32.toInt32 = Int32.ofInt n := by
  apply Int32.toBitVec_inj.1
  apply BitVec.eq_of_toNat_eq
  show Word.ofInt 4 n % 2 ^ 32 = (BitVec.ofInt 32 n).toNat
  rw [BitVec.toNat_ofInt, Word.ofInt_four]
  omega

/-- How an outcome shows in a machine: it goes on with the store, or stops with the fault. -/
def Outcome.Matches {σ : Type} (callers : List Frame) : Outcome σ → Step σ → Prop
  | .done s host, step => step = .next (s.machine [] callers) host
  | .fault cause s host, step => ∃ m : Machine, step = .fault cause m host ∧ m.Keeps s

namespace Machine

variable {σ : Type} [Host σ] {code : Bytecode} {s : Store} {stack : List Int32}
  {callers : List Frame} {is : List Instruction} {i : Fin 30000} {host : σ}

/-- An instruction that pushes a value leaves it to the others, if there is room. -/
theorem executeAll_push {instruction : Instruction} {v : Int32}
    (pushes : (s.machine stack callers).execute code host instruction.stored =
      (s.machine stack callers).push v host) (room : stack.length < stackLimit) :
    executeAll code (instruction :: is) (s.machine stack callers) host =
      executeAll code is (s.machine (v :: stack) callers) host :=
  executeAll_of_next (pushes.trans (Store.push_machine room v host))

theorem executeAll_pointer (room : stack.length < stackLimit) :
    executeAll code (.loadPointer :: is) (s.machine stack callers) host =
      executeAll code is (s.machine (s.pointer :: stack) callers) host :=
  executeAll_push rfl room

/-- Loading the cell under the pointer. -/
theorem executeAll_load (found : s.position? = some i) (room : stack.length < stackLimit) :
    executeAll code (.loadPointer :: .loadCell :: is) (s.machine stack callers) host =
      executeAll code is (s.machine (s.cell i :: stack) callers) host := by
  rw [executeAll_pointer room]
  apply executeAll_of_next
  exact (Store.loadCell_machine found host).trans (Store.push_machine room _ host)

/-- Loading the current cell is a fault outside the tape. -/
theorem executeAll_load_outside (found : s.position? = none) (room : stack.length < stackLimit) :
    executeAll code (.loadPointer :: .loadCell :: is) (s.machine stack callers) host =
      .fault s.outside (s.machine stack callers) host := by
  rw [executeAll_pointer room]
  exact executeAll_of_fault (Store.loadCell_machine_outside found host)

/-- Storing to the cell under the pointer. -/
theorem executeAll_store (found : s.position? = some i) (value : Int32) :
    executeAll code (.storeCell :: is) (s.machine (value :: s.pointer :: stack) callers) host =
      executeAll code is ((s.setCell i value).machine stack callers) host :=
  executeAll_of_next (Store.storeCell_machine found value host)

/-- Storing to the current cell is a fault outside the tape. -/
theorem executeAll_store_outside (found : s.position? = none) (value : Int32) :
    executeAll code (.storeCell :: is) (s.machine (value :: s.pointer :: stack) callers) host =
      .fault s.outside (s.machine stack callers) host :=
  executeAll_of_fault (Store.storeCell_machine_outside found value host)

/-- Adding an amount to the value on top of the stack, whatever its sign. -/
theorem executeAll_amount (delta : Int) (value : Int32) (room : stack.length + 1 < stackLimit) :
    executeAll code (Node.amount delta :: Node.change delta :: is)
        (s.machine (value :: stack) callers) host =
      executeAll code is (s.machine ((value + Int32.ofInt delta) :: stack) callers) host := by
  have constant :
      (s.machine (value :: stack) callers).execute code host (Node.amount delta).stored =
      (s.machine (value :: stack) callers).push
        (Int32.ofInt (if delta < 0 then -delta else delta)) host := by
    rw [← Word.toInt32_ofInt]
    rfl
  have below : stack.length < stackLimit := by omega
  rw [executeAll_push constant room]
  apply executeAll_of_next
  unfold Node.change
  by_cases negative : delta < 0
  · -- The size of a negative amount is subtracted.
    have difference : value - Int32.ofInt (-delta) = value + Int32.ofInt delta := by
      simp [Int32.ofInt_neg]
    rw [if_pos negative, if_pos negative, ← difference]
    exact Store.push_machine below _ host
  · rw [if_neg negative, if_neg negative]
    exact Store.push_machine below _ host

/-! ### Each node -/

/-- The code of a move moves the pointer, by a word of 32 bits. -/
theorem executeAll_move (s : Store) (callers : List Frame) (delta : Int) (host : σ) :
    executeAll code (Node.move delta).leafCode.toList (s.machine [] callers) host =
      .next ({ s with pointer := s.pointer + Int32.ofInt delta }.machine [] callers) host := by
  show executeAll code [.loadPointer, Node.amount delta, Node.change delta, .storePointer] _
    host = _
  rw [executeAll_pointer (by simp [stackLimit]), executeAll_amount delta _ (by simp [stackLimit])]
  rfl

/-- The code of an amount does what evaluation does with it, fault included. -/
theorem executeAll_amend (s : Store) (callers : List Frame) (delta : Int) (host : σ) :
    (s.perform host (.amend delta)).Matches callers
      (executeAll code (Node.amend delta).leafCode.toList (s.machine [] callers) host) := by
  show (s.atCell host _).Matches callers (executeAll code [.loadPointer, .loadPointer, .loadCell,
    Node.amount delta, Node.change delta, .storeScratch, .loadScratch, .storeCell] _ host)
  rw [executeAll_pointer (by simp [stackLimit]), Store.atCell]
  cases found : s.position? with
  | none => exact ⟨_, executeAll_load_outside found (by simp [stackLimit]), s.machine_keeps _ _⟩
  | some i =>
    rw [executeAll_load found (by simp [stackLimit]),
      executeAll_amount delta _ (by simp [stackLimit])]
    -- The sum goes through the scratch register, which keeps it.
    exact executeAll_store (s := { s with scratch := s.cell i + Int32.ofInt delta }) found _

/-- The code of a zero does what evaluation does with it, fault included. -/
theorem executeAll_zero (s : Store) (callers : List Frame) (host : σ) :
    (s.perform host .zero).Matches callers
      (executeAll code Node.zero.leafCode.toList (s.machine [] callers) host) := by
  show (s.atCell host _).Matches callers
    (executeAll code [.loadPointer, .constant 0, .storeCell] _ host)
  rw [executeAll_pointer (by simp [stackLimit]), executeAll_push rfl (by simp [stackLimit]),
    Store.atCell]
  cases found : s.position? with
  | none => exact ⟨_, executeAll_store_outside found _, s.machine_keeps _ _⟩
  | some i => exact executeAll_store found _

/-- The code of a read does what evaluation does with it, for every answer of the host. -/
theorem executeAll_read (s : Store) (callers : List Frame) (host : σ) :
    (s.perform host .read).Matches callers
      (executeAll code Node.read.leafCode.toList (s.machine [] callers) host) := by
  show (s.perform host .read).Matches callers
    (executeAll code [.loadPointer, .read, .storeCell] _ host)
  rw [executeAll_pointer (by simp [stackLimit]), Store.perform]
  rcases answer : Host.read host with ⟨reason | value, host'⟩
  · refine ⟨s.machine [s.pointer] callers, executeAll_of_fault ?_, s.machine_keeps _ _⟩
    simp only [Instruction.stored, execute, answer]
  · have read : (s.machine [s.pointer] callers).execute code host Instruction.read.stored =
        .next (s.machine [value, s.pointer] callers) host' := by
      simp only [Instruction.stored, execute, answer]
      exact Store.push_machine (by simp [stackLimit]) value host'
    -- Only now is the pointer looked at: what was read is lost if it is not on the tape.
    rw [executeAll_of_next read]
    dsimp only
    rw [Store.atCell]
    cases found : s.position? with
    | none => exact ⟨_, executeAll_store_outside found _, s.machine_keeps _ _⟩
    | some i => exact executeAll_store found _

/-- The code of a write does what evaluation does with it, for every answer of the host. -/
theorem executeAll_write (s : Store) (callers : List Frame) (host : σ) :
    (s.perform host .write).Matches callers
      (executeAll code Node.write.leafCode.toList (s.machine [] callers) host) := by
  show (s.atCell host _).Matches callers (executeAll code [.loadPointer, .loadCell, .write] _ host)
  rw [Store.atCell]
  cases found : s.position? with
  | none => exact ⟨_, executeAll_load_outside found (by simp [stackLimit]), s.machine_keeps _ _⟩
  | some i =>
    rw [executeAll_load found (by simp [stackLimit])]
    dsimp only
    rcases answer : Host.write (s.cell i) host with ⟨reason | _, host'⟩
    · refine ⟨s.machine [] callers, executeAll_of_fault ?_, s.machine_keeps _ _⟩
      simp only [Instruction.stored, execute, Store.machine, answer]
    · refine (executeAll_of_next ?_).trans rfl
      simp only [Instruction.stored, execute, Store.machine, answer]

/-- The handle of a procedure's number, as it is read from the stack. -/
theorem toInt_handle (id : Int) :
    (⟨(Int32.ofNat ((Word.ofInt 4 id).toUInt32 % 0x10000).toNat).toInt⟩ : Handle) =
      Registry.handle id := by
  have cut : ((Word.ofInt 4 id).toUInt32 % 0x10000).toNat = (id % 0x10000).toNat := by
    simp only [Nat.toUInt32_eq, UInt32.toNat_mod, UInt32.toNat_ofNat', Word.ofInt_four,
      UInt32.reduceToNat]
    omega
  rw [cut, Int32.toInt_ofNat_of_lt (by omega), Registry.handle]
  congr 1
  omega

/-- The code of a registration does what evaluation does with it, collisions included. -/
theorem executeAll_register (s : Store) (callers : List Frame) (id : Int) (host : σ) :
    (s.perform host (.register id)).Matches callers
      (executeAll code (Node.register id).leafCode.toList (s.machine [] callers) host) := by
  show (s.atCell host (s.bind host id)).Matches callers
    (executeAll code [.loadPointer, .loadCell, Node.handle id, .register] _ host)
  rw [Store.atCell]
  cases found : s.position? with
  | none => exact ⟨_, executeAll_load_outside found (by simp [stackLimit]), s.machine_keeps _ _⟩
  | some i =>
    rw [executeAll_load found (by simp [stackLimit]), executeAll_push rfl (by simp [stackLimit])]
    dsimp only
    -- The handle was cut down in its field, and is the one that the registry gives to the number.
    have bound : (s.machine [Int32.ofNat ((Word.ofInt 4 id).toUInt32 % 0x10000).toNat, s.cell i]
        callers).execute code host Instruction.register.stored =
        (s.machine [] callers).bind (s.cell i) (Registry.handle id) host := by
      rw [← toInt_handle]
      rfl
    cases registry : s.registry with
    | none =>
      have table : (s.machine [] callers).table = none := by simp [Store.machine, registry]
      rw [bind, table] at bound
      simp only [Store.bind, registry]
      exact ⟨_, executeAll_of_fault bound, s.machine_keeps _ _⟩
    | some r =>
      have table : (s.machine [] callers).table = some r.table := by simp [Store.machine, registry]
      have same := r.map_table_register (s.cell i) id
      rw [bind, table] at bound
      simp only [Store.bind, registry]
      dsimp only at bound
      cases taken : r.register (s.cell i) id with
      | error collision =>
        rw [taken] at same
        rw [← same] at bound
        exact ⟨_, executeAll_of_fault bound, s.machine_keeps _ _⟩
      | ok r' =>
        rw [taken] at same
        rw [← same] at bound
        exact executeAll_of_next bound

/-- The code of a node other than a call goes on from each instruction to the next. -/
theorem isStraight_leafCode {leaf : Node} (simple : leaf ≠ .call) :
    ∀ i ∈ leaf.leafCode.toList, i.isStraight = true := by
  cases leaf with
  | call => exact absurd rfl simple
  | move | amend =>
    simp only [Node.leafCode, Node.change]
    split <;> simp [Node.amount, Instruction.isStraight]
  | register => simp [Node.leafCode, Node.handle, Instruction.isStraight]
  | _ => simp [Node.leafCode, Instruction.isStraight]

/-- The code of a node that holds no others and calls none does what the node means. -/
theorem executeAll_leafCode (code : Bytecode) (s : Store) (callers : List Frame) {leaf : Node}
    (h : leaf ≠ .call) (host : σ) :
    (s.perform host leaf).Matches callers
      (executeAll code leaf.leafCode.toList (s.machine [] callers) host) := by
  cases leaf with
  | move delta => exact executeAll_move s callers delta host
  | amend delta => exact executeAll_amend s callers delta host
  | read => exact executeAll_read s callers host
  | write => exact executeAll_write s callers host
  | zero => exact executeAll_zero s callers host
  | register id => exact executeAll_register s callers id host
  | call => exact absurd rfl h
  | sequence | loop | procedure => rfl

end Machine

end TapeLang
