/-
# First registrations win

A built program binds keys to procedures while it runs, in loops, in procedures and in procedures
that these define. Whatever way it takes, a key stays with the procedure that was registered first
under it: a second registration is a collision, the table is made only once, and a call finds what
is bound to the value of the cell under the pointer, or fails with the list of all bound keys.

A step changes the table only by a registration under a key that is not bound:
`Machine.bound_of_step`. So what is bound after a number of steps is what was registered first in
them: `Machine.bound_iff_of_reaches`.
-/
import TapeLang.Proofs.Recall

namespace TapeLang

/-! ## Tables -/

namespace Table

variable {t : Table} {key : Int32} {bound : Handle}

theorem register_of_bound (h : t.find? key = some bound) (handle : Handle) :
    t.register key handle = .error ⟨key, bound⟩ := by
  simp only [register, h]

/-- A key without a binding can be registered. -/
theorem exists_register_of_unbound (h : t.find? key = none) (handle : Handle) :
    ∃ u, t.register key handle = .ok u := by
  simp only [register, h]
  exact ⟨_, rfl⟩

theorem lookup_of_bound (h : t.find? key = some bound) : t.lookup key = bound := by
  rw [lookup, h, Option.getD_some]

theorem lookup_of_unbound (h : t.find? key = none) : t.lookup key = .missing := by
  rw [lookup, h, Option.getD_none]

/-- The keys of a table are those that are bound. -/
theorem mem_keys_iff (t : Table) (key : Int32) : key ∈ t.keys ↔ (t.find? key).isSome = true := by
  rw [keys, find?, Std.TreeMap.mem_keys, Std.TreeMap.mem_iff_isSome_getElem?]

/-- The keys are listed in ascending order, and each one once. -/
theorem keys_ascending (t : Table) : t.keys.Pairwise fun a b => a.toInt < b.toInt := by
  refine t.bindings.ordered_keys.imp ?_
  intro a b less
  rw [← Int32.lt_iff_toInt_lt]
  exact Std.compare_eq_lt.1 less

end Table

/-! ## Registrations and calls -/

namespace Machine

/-- The handle that is bound to a key. -/
def bound (m : Machine) (key : Int32) : Option Handle :=
  m.table.bind fun table => table.find? key

/-- The opcode of the instruction that comes next. -/
def opcode? (m : Machine) (code : Bytecode) : Option Opcode :=
  match m.frame.ip + 1 with
  | .negSucc _ => none
  | .ofNat position => (code.unit m.frame.unit)[position]?.bind Opcode.ofByte?

/-- The last instruction of the code of a node that holds no others comes next. -/
def Finishes (m : Machine) (code : Bytecode) (node : Node) : Prop :=
  ∃ base, code.Has m.frame.unit base node.leafCode.toList ∧
    m.frame.ip + 1 = (base + Instruction.span node.leafCode.toList.dropLast : Nat)

/-- The machine is about to register a procedure under the value of the cell under the pointer. -/
structure Registers (m : Machine) (code : Bytecode) (key : Int32) (id : Int) : Prop where
  node : m.Finishes code (.register id)
  low : 0 ≤ id
  fits : id ≤ Node.lastProcedure
  current : m.current? = some key

/-- The machine is about to call what the value of the cell under the pointer is bound to. -/
structure Calls (m : Machine) (code : Bytecode) (key : Int32) : Prop where
  node : m.Finishes code .call
  current : m.current? = some key

variable {p : Program} {code : Bytecode} {m m' : Machine} {before after body : List Instruction}
  {i : Instruction} {key : Int32} {id : Int}

/-- The next opcode is that of the instruction at which the machine stands. -/
theorem Place.opcode?_eq (emitted : p.Emitted code) (here : m.Place p code before i after body) :
    m.opcode? code = some i.opcode := by
  have first := Code.getElem?_of_bytes (emitted.unit _ _ here.unit)
  have position : m.frame.ip + 1 = Int.ofNat (Instruction.span before) := by
    have := here.ip
    simp only [Int.ofNat_eq_natCast]
    omega
  rw [opcode?, position]
  simp only [first, Option.bind_some, Opcode.ofByte?_toByte]

/-- What a machine at the last instruction of the code of a node has gone through. -/
theorem Finishes.passed (emitted : p.Emitted code) (here : m.Place p code before i after body)
    {node : Node} {load : List Instruction} {last : Instruction}
    (ends : node.leafCode.toList = load ++ [last]) (h : m.Finishes code node) :
    i.opcode = last.opcode ∧
      ∃ front, (before.map Instruction.stored).reverse =
        (load.map Instruction.stored).reverse ++ front := by
  obtain ⟨base, ⟨front, back, bytes, rfl⟩, ip⟩ := h
  rw [ends, List.dropLast_concat] at ip
  rw [ends] at bytes
  have whole : (before ++ i :: after).flatMap Instruction.encode =
      ((front ++ load) ++ last :: back).flatMap Instruction.encode := by
    rw [← emitted.unit _ _ here.unit, bytes]
    simp
  obtain ⟨first, second⟩ := Instruction.stored_of_bytes whole (by
    have := here.ip
    rw [Instruction.span_append]
    omega)
  have same : i.stored = last.stored := (List.cons.inj second).1
  refine ⟨?_, (front.map Instruction.stored).reverse, ?_⟩
  · rw [← Instruction.opcode_stored, same, Instruction.opcode_stored]
  rw [first, List.map_append, List.reverse_append]

/-- A machine has come to the last instruction of the code of a node. -/
theorem Place.finishes (emitted : p.Emitted code) (here : m.Place p code before i after body)
    {node : Node} {load : List Instruction} {last : Instruction}
    (ends : node.leafCode.toList = load ++ [last])
    (behind : node.leafCode.toList <:+ before ++ [i]) : m.Finishes code node := by
  obtain ⟨front, same⟩ := behind
  rw [ends, ← List.append_assoc] at same
  obtain ⟨rfl, ⟨⟩⟩ := List.append_inj' same rfl
  have has := emitted.has here.unit
  rw [List.append_assoc, ← List.singleton_append, ← List.append_assoc load, ← ends] at has
  refine ⟨_, has.right.left, ?_⟩
  rw [ends, List.dropLast_concat, here.ip, Instruction.span_append]
  omega

/-- A machine that is about to register a procedure has its number and the key on the stack. -/
theorem Registers.stack (emitted : p.Emitted code) (here : m.Place p code before i after body)
    (recalls : m.Recalls (before.map Instruction.stored).reverse) (h : m.Registers code key id) :
    i = .register ∧ ∃ handle rest, m.stack = handle :: key :: rest ∧ handle.toInt = id := by
  obtain ⟨last, front, passed⟩ := h.node.passed emitted here (Node.leafCode_register id)
  obtain ⟨other, stack, current, top⟩ := recalls.handle _ front passed
  obtain rfl : other = key := Option.some.inj (current.symm.trans h.current)
  refine ⟨Instruction.eq_of_opcode rfl last, _, stack, top, ?_⟩
  have number := toInt_handle id
  have fits := h.fits
  simp only [Node.lastProcedure] at fits
  rw [Registry.handle_of_fits h.low (by omega)] at number
  exact congrArg Handle.id number

/-- A machine that is about to call has looked up the key. -/
theorem Calls.stack (emitted : p.Emitted code) (here : m.Place p code before i after body)
    (recalls : m.Recalls (before.map Instruction.stored).reverse) (h : m.Calls code key) :
    i = .invoke ∧ ∃ table rest, m.table = some table ∧ m.lastKey = key ∧
      m.stack = Int32.ofInt (table.lookup key).id :: rest := by
  obtain ⟨last, front, passed⟩ := h.node.passed emitted here Node.leafCode_call
  obtain ⟨other, table, stack, current, found, looked, top⟩ := recalls.found front passed
  obtain rfl : other = key := Option.some.inj (current.symm.trans h.current)
  exact ⟨Instruction.eq_of_opcode rfl last, table, stack, found, looked, top⟩

/-- An instruction that registers is the last one of the code of a node, and the number is known. -/
theorem Place.registers (ready : p.Ready code) (here : m.Place p code before .register after body)
    (recalls : m.Recalls (before.map Instruction.stored).reverse) :
    ∃ key id, p.Knows id ∧ m.Registers code key id := by
  rcases ready.follows here.unit with ⟨id, known, behind⟩ | ⟨-, made, -⟩
  · have node := here.finishes ready.emitted (Node.leafCode_register id) behind
    obtain ⟨-, front, passed⟩ := node.passed ready.emitted here (Node.leafCode_register id)
    obtain ⟨key, -, current, -⟩ := recalls.handle _ front passed
    exact ⟨key, id, known, node, known.low, known.fits, current⟩
  · cases made

/-- An instruction that calls is the last one of the code of a node. -/
theorem Place.calls (ready : p.Ready code) (here : m.Place p code before .invoke after body)
    (recalls : m.Recalls (before.map Instruction.stored).reverse) : ∃ key, m.Calls code key := by
  rcases ready.follows here.unit with behind | ⟨-, made, -⟩
  · have node := here.finishes ready.emitted Node.leafCode_call behind
    obtain ⟨-, front, passed⟩ := node.passed ready.emitted here Node.leafCode_call
    obtain ⟨key, -, -, current, -⟩ := recalls.found front passed
    exact ⟨key, node, current⟩
  · cases made

/-- There is no table yet where one is made. -/
theorem Place.table_eq_none (ready : p.Ready code)
    (here : m.Place p code before .newTable after body) : m.table = none := by
  rcases ready.follows here.unit with h | ⟨unit, -, rfl⟩
  · cases h
  · have reached := here.reached
    rw [unit] at reached
    have shape : ⟨0, false⟩ = m.shape := Option.some.inj reached
    simpa [Machine.shape] using congrArg Shape.table shape

/-! ## Steps -/

variable {σ : Type} [Host σ] {host host' : σ}

/-- A machine that is about to register a procedure of the program binds the key. -/
theorem Tracked.step_of_registers (ready : p.Ready code) (tracked : m.Tracked p)
    (h : m.Registers code key id) (host : σ) :
    ∃ (table : Table) (m₁ : Machine), m.table = some table ∧ m₁.table = some table ∧
      m.step code host = m₁.bind key ⟨id⟩ host := by
  obtain ⟨before, i, after, body, here, recalls⟩ := tracked.place ready
  obtain ⟨rfl, handle, rest, top, number⟩ := h.stack ready.emitted here recalls
  have there : m.table.isSome = true := (Shape.allows_iff.1 here.allowed).2.2.1 rfl
  obtain ⟨table, found⟩ := Option.isSome_iff_exists.1 there
  refine ⟨table, { m.stand m.frame.unit (Instruction.span before + Instruction.register.size) with
    stack := rest }, found, found, ?_⟩
  rw [here.step_eq (by decide), ← number]
  simp only [Instruction.stored, execute, stand, top]

/-- A machine that is about to call goes by what is bound to the key. -/
theorem Tracked.step_of_calls (ready : p.Ready code) (tracked : m.Tracked p) (h : m.Calls code key)
    (host : σ) :
    ∃ (table : Table) (m₁ : Machine), m.table = some table ∧ m₁.table = some table ∧
      m₁.lastKey = key ∧ m₁.depth = m.depth ∧ m.step code host =
        m₁.invoke code.procedures.size (Int32.ofInt (table.lookup key).id) host := by
  obtain ⟨before, i, after, body, here, recalls⟩ := tracked.place ready
  obtain ⟨rfl, table, rest, found, looked, top⟩ := h.stack ready.emitted here recalls
  refine ⟨table, { m.stand m.frame.unit (Instruction.span before + Instruction.invoke.size) with
    stack := rest }, found, found, looked, rfl, ?_⟩
  rw [here.step_eq (by decide)]
  simp only [Instruction.stored, execute, stand, top]

/-- Only the number on the stack is registered, and it is one of a procedure of the program. -/
theorem Tracked.knows (ready : p.Ready code) (tracked : m.Tracked p) (h : m.Registers code key id) :
    p.Knows id ∧ ∀ key' id', m.Registers code key' id' → key' = key ∧ id' = id := by
  obtain ⟨before, i, after, body, here, recalls⟩ := tracked.place ready
  obtain ⟨rfl, handle, rest, top, number⟩ := h.stack ready.emitted here recalls
  have same (key' : Int32) (id' : Int) (other : m.Registers code key' id') :
      key' = key ∧ id' = id := by
    obtain ⟨-, handle', rest', top', number'⟩ := other.stack ready.emitted here recalls
    cases top.symm.trans top'
    exact ⟨rfl, number'.symm.trans number⟩
  obtain ⟨key', id', known, other⟩ := here.registers ready recalls
  obtain ⟨-, rfl⟩ := same key' id' other
  exact ⟨known, same⟩

/-- Only registrations, and the making of the table, change the table. -/
theorem table_of_execute (next : m.execute code host i = .next m' host') (other : i ≠ .register)
    (kept : i ≠ .newTable) : m'.table = m.table := by
  cases i with
  | register => exact absurd rfl other
  | newTable => exact absurd rfl kept
  | newTape | loop =>
    cases next
    rfl
  | constant | loadPointer | loadScratch | procedure => rw [eq_of_push next]
  | storePointer | storeScratch =>
    simp only [execute] at next
    split at next
    · cases next
      rfl
    · cases next
  | loadCell =>
    simp only [execute] at next
    split at next
    · obtain ⟨-, -, -, -, rfl⟩ := exists_of_loadCell next
      rfl
    · cases next
  | storeCell =>
    simp only [execute, storeCell] at next
    split at next
    · split at next
      · cases next
        rfl
      · cases next
    · cases next
  | add | sub =>
    simp only [execute] at next
    split at next
    · rw [eq_of_push next]
    · cases next
  | read =>
    simp only [execute] at next
    split at next
    · rw [eq_of_push next]
    · cases next
  | write =>
    simp only [execute] at next
    split at next
    · split at next
      · cases next
        rfl
      · cases next
    · cases next
  | jumpZero =>
    simp only [execute] at next
    split at next
    · cases next
      split <;> rfl
    · cases next
  | lookup =>
    simp only [execute] at next
    split at next
    · obtain ⟨-, -, rfl⟩ := exists_of_find next
      rfl
    · cases next
  | invoke =>
    simp only [execute, invoke, call] at next
    split at next
    · split at next
      · split at next
        · cases next
          rfl
        · cases next
      · split at next <;> cases next
    · cases next
  | leave =>
    simp only [execute] at next
    split at next
    · cases next
      rfl
    · cases next
  | returnValue =>
    simp only [execute] at next
    split at next <;> cases next

/-- A registration under a bound key is a collision, and leaves the table as it is. -/
theorem Tracked.collides (ready : p.Ready code) (tracked : m.Tracked p)
    (h : m.Registers code key id) {handle : Handle} (taken : m.bound key = some handle) (host : σ) :
    ∃ m', m.step code host = .fault (.keyCollision ⟨id⟩ ⟨key, handle⟩) m' host ∧
      m'.table = m.table := by
  obtain ⟨table, m₁, found, same, step⟩ := tracked.step_of_registers ready h host
  rw [bound, found, Option.bind_some] at taken
  refine ⟨m₁, ?_, same.trans found.symm⟩
  rw [step]
  simp only [bind, same, Table.register_of_bound taken]

/-- A registration under a key that is not bound binds this key, and no other. -/
theorem Tracked.binds (ready : p.Ready code) (tracked : m.Tracked p) (h : m.Registers code key id)
    (free : m.bound key = none) (host : σ) :
    ∃ m', m.step code host = .next m' host ∧ m'.table.isSome = true ∧
      ∀ k, m'.bound k = if k = key then some ⟨id⟩ else m.bound k := by
  obtain ⟨table, m₁, found, same, step⟩ := tracked.step_of_registers ready h host
  rw [bound, found, Option.bind_some] at free
  obtain ⟨table', registered⟩ := Table.exists_register_of_unbound free ⟨id⟩
  refine ⟨{ m₁ with table := some table' }, ?_, rfl, fun k => ?_⟩
  · rw [step]
    simp only [bind, same, registered]
  · rw [bound, bound, found]
    exact Table.find?_of_register registered k

/-- A call under a key that is not bound fails, and says which keys are. -/
theorem Tracked.unregistered (ready : p.Ready code) (tracked : m.Tracked p) (h : m.Calls code key)
    (free : m.bound key = none) (host : σ) :
    ∃ (table : Table) (m' : Machine), m.table = some table ∧ m'.table = some table ∧
      m.step code host = .fault (.unregisteredCall key table.keys) m' host := by
  obtain ⟨table, m₁, found, same, looked, -, step⟩ := tracked.step_of_calls ready h host
  rw [bound, found, Option.bind_some] at free
  refine ⟨table, m₁, found, same, ?_⟩
  rw [step, Table.lookup_of_unbound free]
  have negative : ¬ (0 ≤ (Int32.ofInt Handle.missing.id).toInt ∧
      (Int32.ofInt Handle.missing.id).toInt < code.procedures.size) := by
    rintro ⟨low, -⟩
    exact absurd low (by decide)
  simp only [invoke, if_neg negative, same, looked]

/-- A call under a bound key enters the procedure, unless too many units are active. -/
theorem Tracked.enters (ready : p.Ready code) (tracked : m.Tracked p) (h : m.Calls code key)
    {handle : Handle} (taken : m.bound key = some handle) (known : p.Knows handle.id) (host : σ) :
    if m.depth < Fault.maxFrames then
      ∃ m', m.step code host = .next m' host ∧ m'.frame = { unit := some handle.id.toNat }
    else ∃ m', m.step code host = .fault .callDepth m' host := by
  obtain ⟨table, m₁, found, -, -, depth, step⟩ := tracked.step_of_calls ready h host
  rw [bound, found, Option.bind_some] at taken
  -- A number of two bytes comes back from the stack as it went there.
  have number : (Int32.ofInt handle.id).toInt = handle.id := by
    have low := known.low
    have fits := known.fits
    simp only [Node.lastProcedure] at fits
    exact Int32.toInt_ofInt_of_le (by omega) (by omega)
  have inside : 0 ≤ handle.id ∧ handle.id < code.procedures.size := by
    rw [ready.emitted.count]
    exact ⟨known.low, known.defined⟩
  rw [step, Table.lookup_of_bound taken, invoke, number, if_pos inside, call, depth]
  split
  · exact ⟨_, rfl, rfl⟩
  · exact ⟨_, rfl⟩

/-- **A step changes what is bound only by a registration under a key that is not bound.** -/
theorem Tracked.bound_of_step (ready : p.Ready code) (tracked : m.Tracked p)
    (next : m.step code host = .next m' host') :
    (∃ key id, m.Registers code key id ∧ m.bound key = none ∧ m'.table.isSome = true ∧
        ∀ k, m'.bound k = if k = key then some ⟨id⟩ else m.bound k) ∨
      (∀ key id, ¬ m.Registers code key id) ∧ (m.table.isSome = true → m'.table.isSome = true) ∧
        ∀ k, m'.bound k = m.bound k := by
  obtain ⟨before, i, after, body, here, recalls⟩ := tracked.place ready
  by_cases registers : i = .register
  · subst registers
    obtain ⟨key, id, -, event⟩ := here.registers ready recalls
    cases free : m.bound key with
    | some handle =>
      obtain ⟨_, fault, -⟩ := tracked.collides ready event free host
      cases next.symm.trans fault
    | none =>
      obtain ⟨_, step, table, bound⟩ := tracked.binds ready event free host
      cases next.symm.trans step
      exact .inl ⟨key, id, event, free, table, bound⟩
  · have quiet (key : Int32) (id : Int) : ¬ m.Registers code key id := by
      intro event
      exact registers (event.stack ready.emitted here recalls).1
    refine .inr ⟨quiet, ?_⟩
    have step := step_eq_execute here.has m host
    rw [← here.eq_stand, next] at step
    by_cases makes : i = .newTable
    · subst makes
      have none := here.table_eq_none ready
      cases step
      exact ⟨fun _ => rfl, fun k => by simp [bound, none]⟩
    · have table := table_of_execute step.symm
        (fun h => registers (Instruction.eq_of_opcode rfl (by rw [← h, Instruction.opcode_stored])))
        (fun h => makes (Instruction.eq_of_opcode rfl (by rw [← h, Instruction.opcode_stored])))
      have same : m'.table = m.table := table
      exact ⟨fun some => by rw [same, some], fun k => by rw [bound, same, bound]⟩

/-! ## Runs -/

/-- The last of several steps. -/
theorem Reaches.exists_last {n : Nat} {c e : Machine × σ} (h : Reaches code (n + 1) c e) :
    ∃ d : Machine × σ, Reaches code n c d ∧ d.1.step code d.2 = .next e.1 e.2 := by
  generalize count : n + 1 = k at h
  induction h generalizing n with
  | refl => cases count
  | @head k m m' host host' e step rest ih =>
    obtain rfl : n = k := Nat.succ.inj count
    cases n with
    | zero =>
      cases rest
      exact ⟨(m, host), .refl _, step⟩
    | succ n =>
      obtain ⟨d, reached, last⟩ := ih rfl
      exact ⟨d, .head step reached, last⟩

/-- A number of steps leads to one state. -/
theorem Reaches.unique {n : Nat} {c d e : Machine × σ} (h : Reaches code n c d)
    (g : Reaches code n c e) : d = e := by
  induction h with
  | refl =>
    cases g
    rfl
  | head step _ ih =>
    cases g with
    | head step' rest =>
      cases step.symm.trans step'
      exact ih rest

end Machine

open Machine

/-- Within `n` steps of a run no procedure is registered under a key. -/
def Bytecode.Unregistered {σ : Type} [Host σ] (code : Bytecode) (host : σ) (n : Nat) (key : Int32) :
    Prop :=
  ∀ i < n, ∀ m left, Reaches code i ({}, host) (m, left) → ∀ id, ¬ m.Registers code key id

/-- Within `n` steps of a run a procedure is registered under a key, and none was before. -/
def Bytecode.FirstRegistered {σ : Type} [Host σ] (code : Bytecode) (host : σ) (n : Nat)
    (key : Int32) (id : Int) : Prop :=
  ∃ i < n, ∃ m left, Reaches code i ({}, host) (m, left) ∧ m.Registers code key id ∧
    code.Unregistered host i key

namespace Machine

section History

variable {σ : Type} [Host σ] {p : Program} {code : Bytecode} {m m' : Machine} {host left left' : σ}
  {n : Nat} {key : Int32} {id : Int}

/-- A step that registers nothing under a key leaves the history of the key as it is. -/
theorem unregistered_succ_iff (reached : Reaches code n ({}, host) (m, left))
    (quiet : ∀ id, ¬ m.Registers code key id) :
    code.Unregistered host (n + 1) key ↔ code.Unregistered host n key := by
  constructor
  · exact fun h i before => h i (by omega)
  · intro h i before d rest there
    rcases Nat.lt_succ_iff_lt_or_eq.1 before with earlier | rfl
    · exact h i earlier d rest there
    · cases there.unique reached
      exact quiet

/-- A step that does not register the key changes nothing about its first registration. -/
theorem firstRegistered_succ_iff (reached : Reaches code n ({}, host) (m, left))
    (quiet : ∀ id, ¬ m.Registers code key id) :
    code.FirstRegistered host (n + 1) key id ↔ code.FirstRegistered host n key id := by
  constructor
  · rintro ⟨i, before, d, rest, there, event, none⟩
    rcases Nat.lt_succ_iff_lt_or_eq.1 before with earlier | rfl
    · exact ⟨i, earlier, d, rest, there, event, none⟩
    · cases there.unique reached
      exact absurd event (quiet id)
  · rintro ⟨i, before, rest⟩
    exact ⟨i, by omega, rest⟩

/-- **What is bound after a number of steps is what was registered first in them**, and a key is
free as long as nothing was registered under it. -/
theorem bound_iff_of_reaches (ready : p.Ready code) (reached : Reaches code n ({}, host) (m, left))
    (key : Int32) :
    (m.bound key = none ↔ code.Unregistered host n key) ∧
      ∀ handle, m.bound key = some handle ↔ code.FirstRegistered host n key handle.id := by
  induction n generalizing m left with
  | zero =>
    cases reached
    refine ⟨⟨fun _ => nofun, fun _ => rfl⟩, fun handle => ⟨nofun, ?_⟩⟩
    rintro ⟨i, before, -⟩
    cases before
  | succ n ih =>
    obtain ⟨⟨d, rest⟩, there, step⟩ := reached.exists_last
    have tracked : d.Tracked p := Tracked.of_reaches ready there (tracked_new p)
    obtain ⟨free, first⟩ := ih there
    rcases tracked.bound_of_step ready step with ⟨key', id, event, unbound, -, bound⟩ |
      ⟨quiet, -, bound⟩
    · rw [bound]
      split
      · next same =>
        -- The first registration under this key.
        subst same
        have before := free.1 unbound
        refine ⟨⟨nofun, fun none => absurd event (none n (Nat.lt_succ_self n) d rest there id)⟩, ?_⟩
        intro handle
        constructor
        · rintro ⟨⟩
          exact ⟨n, Nat.lt_succ_self n, d, rest, there, event, before⟩
        · rintro ⟨i, within, d', rest', there', event', -⟩
          rcases Nat.lt_succ_iff_lt_or_eq.1 within with earlier | rfl
          · exact absurd event' (before i earlier d' rest' there' handle.id)
          · cases there.unique there'
            rw [← ((tracked.knows ready event).2 _ _ event').2]
      · next other =>
        have quiet (id : Int) : ¬ d.Registers code key id := by
          intro event'
          exact other ((tracked.knows ready event).2 _ _ event').1
        rw [unregistered_succ_iff there quiet]
        simp only [firstRegistered_succ_iff there quiet]
        exact ⟨free, first⟩
    · rw [bound, unregistered_succ_iff there (quiet key)]
      simp only [firstRegistered_succ_iff there (quiet key)]
      exact ⟨free, first⟩

/-- What is bound is the number of a procedure. -/
theorem knows_of_bound (ready : p.Ready code) (reached : Reaches code n ({}, host) (m, left))
    {handle : Handle} (taken : m.bound key = some handle) : p.Knows handle.id := by
  obtain ⟨i, -, d, rest, there, event, -⟩ :=
    ((bound_iff_of_reaches ready reached key).2 handle).1 taken
  have tracked : d.Tracked p := Tracked.of_reaches ready there (tracked_new p)
  exact (tracked.knows ready event).1

/-- The table stays, with all that is bound. -/
theorem bound_of_reaches (ready : p.Ready code) {c d : Machine × σ} (reached : Reaches code n c d)
    (tracked : c.1.Tracked p) :
    (c.1.table.isSome = true → d.1.table.isSome = true) ∧
      ∀ key handle, c.1.bound key = some handle → d.1.bound key = some handle := by
  induction reached with
  | refl => exact ⟨id, fun _ _ => id⟩
  | head step _ ih =>
    obtain ⟨table, later⟩ := ih (tracked.step ready step)
    rcases tracked.bound_of_step ready step with ⟨key', _, _, free, made, bound⟩ | ⟨-, kept, bound⟩
    · refine ⟨fun _ => table made, fun key handle taken => later key handle ?_⟩
      rw [bound, if_neg, taken]
      rintro rfl
      cases taken.symm.trans free
    · refine ⟨fun some => table (kept some), fun key handle taken => later key handle ?_⟩
      rw [bound, taken]

end History

/-! ## Dispatch -/

/-- What holds of dispatch in a machine after `n` steps of a run, in front of what is left of the
host. -/
structure FirstWins {σ : Type} [Host σ] (code : Bytecode) (host : σ) (n : Nat) (m : Machine)
    (left : σ) : Prop where
  /-- From here on the table stays, with all its bindings. -/
  grows : ∀ k m' left', Reaches code k (m, left) (m', left') →
    (m.table.isSome = true → m'.table.isSome = true) ∧
      ∀ key handle, m.bound key = some handle → m'.bound key = some handle
  /-- A table is made only where there is none. -/
  once : m.opcode? code = some .newTable → m.table = none
  /-- What is bound is the number of a procedure. -/
  handles : ∀ key handle, m.bound key = some handle →
    0 ≤ handle.id ∧ handle.id < code.procedures.size
  /-- A key is bound to the procedure that was registered first under it. -/
  first : ∀ key handle, m.bound key = some handle ↔ code.FirstRegistered host n key handle.id
  /-- The instruction that registers is that of a node, with the value of the current cell as the
  key. -/
  registers : m.opcode? code = some .register ↔ ∃ key id, m.Registers code key id
  /-- The instruction that calls is that of a node, with the value of the current cell as the
  key. -/
  calls : m.opcode? code = some .invoke ↔ ∃ key, m.Calls code key
  /-- A registration under a bound key is a collision, and leaves the table as it is. -/
  collides : ∀ key id handle, m.Registers code key id → m.bound key = some handle →
    ∃ m', m.step code left = .fault (.keyCollision ⟨id⟩ ⟨key, handle⟩) m' left ∧ m'.table = m.table
  /-- A registration under a key that is not bound binds this key, and no other. -/
  binds : ∀ key id, m.Registers code key id → m.bound key = none →
    ∃ m', m.step code left = .next m' left ∧
      ∀ k, m'.bound k = if k = key then some ⟨id⟩ else m.bound k
  /-- A call fails for want of a registration just when its key is not bound. -/
  unregistered : ∀ key, m.Calls code key →
    ((∃ cause m' left', m.step code left = .fault cause m' left' ∧ cause.kind = .unregisteredCall) ↔
      m.bound key = none)
  /-- The reason then names the key and lists the bound keys in ascending order. -/
  reason : ∀ key, m.Calls code key → m.bound key = none →
    ∃ (cause : Fault.Cause) (m' : Machine) (keys : List Int32),
      m.step code left = .fault cause m' left ∧
      cause.kind = .unregisteredCall ∧ m'.table = m.table ∧
      cause.reason = "no procedure registered for key " ++ Decimal.text key.toInt ++
        " (registered: [" ++ " ".intercalate (keys.map fun k => Decimal.text k.toInt) ++ "])" ∧
      (∀ k, k ∈ keys ↔ (m.bound k).isSome = true) ∧ keys.Pairwise fun a b => a.toInt < b.toInt
  /-- A call under a bound key enters the procedure, unless too many units are active. -/
  enters : ∀ key handle, m.Calls code key → m.bound key = some handle →
    if m.depth < Fault.maxFrames then
      ∃ m', m.step code left = .next m' left ∧ m'.frame = { unit := some handle.id.toNat }
    else ∃ m', m.step code left = .fault .callDepth m' left

section

variable {σ : Type} [Host σ] {p : Program} {code : Bytecode} {m : Machine} {host left : σ} {n : Nat}

/-- The next opcode registers exactly if some key is about to be registered. -/
theorem Tracked.opcode_register_iff (ready : p.Ready code) (tracked : m.Tracked p) :
    m.opcode? code = some .register ↔ ∃ key id, m.Registers code key id := by
  obtain ⟨before, i, after, body, here, recalls⟩ := tracked.place ready
  rw [here.opcode?_eq ready.emitted]
  constructor
  · intro same
    obtain rfl : i = .register := Instruction.eq_of_opcode rfl (Option.some.inj same)
    obtain ⟨key, id, -, event⟩ := here.registers ready recalls
    exact ⟨key, id, event⟩
  · rintro ⟨key, id, event⟩
    rw [(event.stack ready.emitted here recalls).1]
    rfl

/-- The next opcode calls exactly if some key is about to be called. -/
theorem Tracked.opcode_invoke_iff (ready : p.Ready code) (tracked : m.Tracked p) :
    m.opcode? code = some .invoke ↔ ∃ key, m.Calls code key := by
  obtain ⟨before, i, after, body, here, recalls⟩ := tracked.place ready
  rw [here.opcode?_eq ready.emitted]
  constructor
  · intro same
    obtain rfl : i = .invoke := Instruction.eq_of_opcode rfl (Option.some.inj same)
    exact here.calls ready recalls
  · rintro ⟨key, event⟩
    rw [(event.stack ready.emitted here recalls).1]
    rfl

/-- There is no table before the instruction that makes it. -/
theorem Tracked.table_of_opcode (ready : p.Ready code) (tracked : m.Tracked p)
    (makes : m.opcode? code = some .newTable) : m.table = none := by
  obtain ⟨before, i, after, body, here, recalls⟩ := tracked.place ready
  rw [here.opcode?_eq ready.emitted] at makes
  obtain rfl : i = .newTable := Instruction.eq_of_opcode rfl (Option.some.inj makes)
  exact here.table_eq_none ready

/-- The first registration of a key wins in every state of every run. -/
theorem firstWins_of_reaches (ready : p.Ready code)
    (reached : Reaches code n ({}, host) (m, left)) : m.FirstWins code host n left := by
  have tracked : m.Tracked p := Tracked.of_reaches ready reached (tracked_new p)
  have known {key : Int32} {handle : Handle} (taken : m.bound key = some handle) :
      p.Knows handle.id :=
    knows_of_bound ready reached taken
  refine
    { grows := fun k m' left' further => bound_of_reaches ready further tracked
      once := tracked.table_of_opcode ready
      handles := ?_
      first := fun key => (bound_iff_of_reaches ready reached key).2
      registers := tracked.opcode_register_iff ready
      calls := tracked.opcode_invoke_iff ready
      collides := fun key id handle event taken => tracked.collides ready event taken left
      binds := ?_
      unregistered := ?_
      reason := ?_
      enters := fun key handle event taken => tracked.enters ready event taken (known taken) left }
  · intro key handle taken
    rw [ready.emitted.count]
    exact ⟨(known taken).low, (known taken).defined⟩
  · intro key id event free
    obtain ⟨m', step, -, bound⟩ := tracked.binds ready event free left
    exact ⟨m', step, bound⟩
  · intro key event
    constructor
    · rintro ⟨cause, m', left', step, kind⟩
      cases taken : m.bound key with
      | none => rfl
      | some handle =>
        have enters := tracked.enters ready event taken (known taken) left
        split at enters
        · obtain ⟨_, next, -⟩ := enters
          cases step.symm.trans next
        · obtain ⟨_, deep⟩ := enters
          cases step.symm.trans deep
          cases kind
    · intro free
      obtain ⟨table, m', -, -, step⟩ := tracked.unregistered ready event free left
      exact ⟨_, m', left, step, rfl⟩
  · intro key event free
    obtain ⟨table, m', found, same, step⟩ := tracked.unregistered ready event free left
    refine ⟨_, m', table.keys, step, rfl, same.trans found.symm, rfl, fun k => ?_,
      table.keys_ascending⟩
    rw [table.mem_keys_iff, bound, found, Option.bind_some]

end

end Machine

/-- Dispatch goes by first registrations wherever the code comes to on a new machine. -/
def Bytecode.FirstWins {σ : Type} [Host σ] (code : Bytecode) (host : σ) : Prop :=
  ∀ n m left, Reaches code n ({}, host) (m, left) → m.FirstWins code host n left

/-- **In built programs first registrations win.** Wherever a run comes to, and whatever the host
does, a key is bound to the procedure that was registered first under it and stays so; to register
another one is a collision, and a call under a key that is not bound fails and lists the keys that
are. -/
theorem build_firstWins {σ : Type} [Host σ] {source : List UInt8} {code : Bytecode}
    (built : build source = .ok code) (short : code.Short) (host : σ) : code.FirstWins host := by
  obtain ⟨p, ready⟩ := Program.ready_of_build built short
  intro n m left reached
  exact firstWins_of_reaches ready reached

/-- A procedure that registers another one under the key of its own. -/
theorem build_firstWins_of_nested :
    ∃ code, build "(.(,)):(:)".toUTF8.toList = .ok code ∧ code.Short ∧
      code.FirstWins ({ reads := [.ok 1] } : Host.Script) := by
  have read : Program.parse "(.(,)):(:)".toUTF8.toList =
      .ok { main := [.register 0, .call, .register 2]
            procedures := [⟨0, [.write, .register 1]⟩, ⟨1, [.read]⟩, ⟨2, [.call]⟩]
            calls := 2 } := by
    cbv
  have built : ∃ code, build "(.(,)):(:)".toUTF8.toList = .ok code ∧ code.Short := by
    rw [build, buildFor, read]
    exact ⟨_, rfl, by decide, by decide⟩
  obtain ⟨code, built, short⟩ := built
  exact ⟨code, built, short, build_firstWins built short _⟩

end TapeLang
