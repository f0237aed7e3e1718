/-
# What a trace tells

A fault lists where the active units stood. Of a built program, every entry but the first is the
place of a call that has not come back, made by the unit of the entry when the frames behind it were
already waiting; the first entry is the place of the instruction that failed; and the last entry,
and only this one, is the main unit.

Frames are put aside by calls and taken up by returns, and stay as they are in between. So, in any
code, what waits at some step is what a call has left waiting and no step has taken up since:
`Machine.pending_of_reaches`. What built programs add is that frames stand at instructions, and that
none of these fails for the code's own doing (`Fault.located_of_run`).
-/
import TapeLang.Proofs.Faults

namespace TapeLang

open Machine

/-! ## Entries -/

/-- How a frame is listed. -/
def Frame.entry (f : Frame) : Fault.Entry :=
  { unit := f.handle, ip := f.ip }

/-- A frame stands at the opcode of an instruction of its unit. -/
def Frame.At (code : Bytecode) (f : Frame) (op : Opcode) : Prop :=
  ∃ position : Nat, f.ip = position ∧ (code.unit f.unit).Begins position ∧
    (code.unit f.unit)[position]? = some op.toByte

/-- The opcodes of the instructions at which a run ends with a cause; a failure to send on what was
written comes behind the last instruction. There are none for the causes that no built program
has. -/
def Fault.Cause.opcodes : Fault.Cause → List Opcode
  | keyCollision _ _ => [.register]
  | unregisteredCall _ _ | callDepth => [.invoke]
  | tapeBounds _ _ => [.loadCell, .storeCell]
  | read _ => [.read]
  | write _ => [.write]
  | flush _ => [.returnValue]
  | operandStack | callWithoutTable | definitionWithoutTable | unknownOpcode _ => []

/-- Where an instruction that can fail is executed, the machine stands at its opcode. -/
theorem Fault.Cause.lastByte_of_mem_opcodes {cause : Fault.Cause} {op : Opcode}
    (member : op ∈ cause.opcodes) (position : Nat) : lastByte position op = position := by
  have bare : op.widths = [] := by
    cases cause <;> simp only [opcodes, List.mem_cons, List.not_mem_nil, or_false] at member
    case tapeBounds => rcases member with rfl | rfl <;> rfl
    all_goals
      subst member
      rfl
  have forward : op ≠ .loop := by
    rintro rfl
    cases bare
  have last : lastByte position op = (position : Int) + Operands.total op.widths := by
    cases op <;> first | rfl | exact absurd rfl forward
  rw [last, bare, Operands.total_nil]
  exact Int.add_zero _

/-! ## Calls that are pending -/

/-- The next step of a machine makes a call: the frame that runs is left waiting as `caller`, in
front of `outer`, and the unit `callee` is entered. -/
def Machine.Makes {σ : Type} [Host σ] (m : Machine) (code : Bytecode) (left : σ) (caller : Frame)
    (outer : List Frame) (callee : Option Nat) : Prop :=
  ∃ (position : Nat) (m' : Machine) (left' : σ), m.fetch code = .instruction .invoke position ∧
    caller = { unit := m.frame.unit, ip := position } ∧ outer = m.callers ∧
    m.step code left = .next m' left' ∧ m'.frame = { unit := callee } ∧ m'.callers = caller :: outer

/-- A call of `callee` is pending after `n` steps of a run on a new machine: one of these steps has
made it, and the frame `caller`, which made it, has been waiting ever since, in front of `outer`. -/
def Bytecode.Pending {σ : Type} [Host σ] (code : Bytecode) (host : σ) (n : Nat) (caller : Frame)
    (outer : List Frame) (callee : Option Nat) : Prop :=
  ∃ k m left, k < n ∧ Reaches code k ({}, host) (m, left) ∧ m.Makes code left caller outer callee ∧
    ∀ j d, k < j → j ≤ n → Reaches code j ({}, host) d → caller :: outer <:+ d.1.callers

/-- A call that is pending stays so as long as its caller waits. -/
theorem Bytecode.Pending.succ {σ : Type} [Host σ] {code : Bytecode} {host : σ} {n : Nat}
    {caller : Frame} {outer : List Frame} {callee : Option Nat}
    (pending : code.Pending host n caller outer callee)
    (waits : ∀ e, Reaches code (n + 1) ({}, host) e → caller :: outer <:+ e.1.callers) :
    code.Pending host (n + 1) caller outer callee := by
  obtain ⟨k, m, left, less, reached, makes, since⟩ := pending
  refine ⟨k, m, left, Nat.lt_succ_of_lt less, reached, makes, ?_⟩
  intro j e above below there
  rcases Nat.lt_or_eq_of_le below with within | rfl
  · exact since j e above (Nat.le_of_lt_succ within) there
  · exact waits e there

namespace Frame

variable {code : Bytecode} {frame frame' x c : Frame} {callers callers' inner outer : List Frame}
  {i : Instruction}

theorem suffix_of_split (split : frame :: callers = inner ++ x :: c :: outer) :
    c :: outer <:+ callers := by
  cases inner with
  | nil =>
    rw [(List.cons.inj split).2]
  | cons y inner =>
    rw [(List.cons.inj split).2]
    exact (List.suffix_cons x _).trans (List.suffix_append inner _)

/-- A frame that goes on elsewhere in its unit does not matter to the frames that wait. -/
theorem exists_split_of_unit (split : frame' :: callers = inner ++ x :: c :: outer)
    (same : frame'.unit = frame.unit) :
    ∃ inner₀ x₀, frame :: callers = inner₀ ++ x₀ :: c :: outer ∧ x₀.unit = x.unit := by
  cases inner with
  | nil =>
    obtain ⟨rfl, rest⟩ := List.cons.inj split
    exact ⟨[], frame, congrArg (frame :: ·) rest, same.symm⟩
  | cons y inner => exact ⟨frame :: inner, x, congrArg (frame :: ·) (List.cons.inj split).2, rfl⟩

/-- A frame that waits behind an instruction was waiting before it, for the same unit, or the
instruction is a call which has left it waiting. -/
theorem Turns.split (turns : Turns code frame callers i frame' callers')
    (split : frame' :: callers' = inner ++ x :: c :: outer) :
    (∃ inner₀ x₀, frame :: callers = inner₀ ++ x₀ :: c :: outer ∧ x₀.unit = x.unit) ∨
      i = .invoke ∧ c = frame ∧ outer = callers ∧ frame' = { unit := x.unit } ∧
        callers' = c :: outer := by
  cases turns with
  | stays => exact .inl ⟨inner, x, split, rfl⟩
  | jumps target | loops distance => exact .inl (exists_split_of_unit split rfl)
  | calls known room =>
    cases inner with
    | nil =>
      obtain ⟨rfl, waiting⟩ := List.cons.inj split
      obtain ⟨rfl, rfl⟩ := List.cons.inj waiting
      exact .inr ⟨rfl, rfl, rfl, rfl, rfl⟩
    | cons y inner => exact .inl ⟨inner, x, (List.cons.inj split).2, rfl⟩
  | leaves same => exact .inl ⟨frame :: inner, x, by rw [same, split, List.cons_append], rfl⟩

/-- Of frames in a chain, the last one and no other has the handle of the main unit. -/
theorem Chain.handles (h : Chain code frame callers) :
    ∃ inner, (frame :: callers).map handle = inner ++ [.missing] ∧ Handle.missing ∉ inner := by
  obtain ⟨inner, outer, same, main, known⟩ := h.exists_outer
  refine ⟨inner.map handle, ?_, ?_⟩
  · rw [same, List.map_append, List.map_singleton, handle, main]
  · intro member
    obtain ⟨f, inside, missing⟩ := List.mem_map.1 member
    obtain ⟨id, -, unit⟩ := known f inside
    rw [handle, unit] at missing
    have number : (id : Int) = -1 := congrArg Handle.id missing
    omega

end Frame

namespace Machine

variable {σ : Type} [Host σ] {code : Bytecode} {m m' : Machine} {host left left' : σ}

/-- A step that fetches an instruction does what may come of it. -/
theorem step_fits (low : m.stack.length ≤ stackLimit) {i : Instruction} {position : Nat}
    (found : m.fetch code = .instruction i position) (left : σ) :
    (m.step code left).Fits code (m.setIp (lastByte position i.opcode)) left i := by
  rw [step_eq_of_fetch, found]
  exact execute_fits (m := m.setIp (lastByte position i.opcode)) low i

/-- A step that goes on executes an instruction, which does to the frames what it may. -/
theorem exists_turns_of_step (low : m.stack.length ≤ stackLimit)
    (next : m.step code left = .next m' left') :
    ∃ i position, m.fetch code = .instruction i position ∧
      Frame.Turns code (m.setIp (lastByte position i.opcode)).frame m.callers i m'.frame
        m'.callers := by
  have step := step_eq_of_fetch m code left
  rw [next] at step
  cases found : m.fetch code with
  | before | ended | unknown _ _ | cut _ _ =>
    rw [found] at step
    cases step
  | instruction i position =>
    have fits := step_fits low found left
    rw [next] at fits
    exact ⟨i, position, rfl, fits.2⟩

/-- A call is pending behind the step that has made it. -/
theorem Makes.pending {n : Nat} {caller : Frame} {outer : List Frame} {callee : Option Nat}
    (makes : m.Makes code left caller outer callee) (reached : Reaches code n ({}, host) (m, left))
    (waits : ∀ e, Reaches code (n + 1) ({}, host) e → caller :: outer <:+ e.1.callers) :
    code.Pending host (n + 1) caller outer callee := by
  refine ⟨n, m, left, Nat.lt_succ_self n, reached, makes, ?_⟩
  intro j e above below there
  obtain rfl : j = n + 1 := Nat.le_antisymm below above
  exact waits e there

/-- **What waits has made a call.** After any number of steps of any code, each frame that waits has
left off at a call of the unit in front of it, and this call is pending. -/
theorem pending_of_reaches {n : Nat} (reached : Reaches code n ({}, host) (m, left))
    {inner outer : List Frame} {x caller : Frame}
    (split : m.frame :: m.callers = inner ++ x :: caller :: outer) :
    code.Pending host n caller outer x.unit := by
  induction n generalizing m left inner x with
  | zero =>
    cases reached
    have two := congrArg List.length split
    simp only [List.length_append, List.length_cons, List.length_nil] at two
    omega
  | succ n ih =>
    obtain ⟨⟨d, before⟩, there, step⟩ := reached.exists_last
    have low : d.stack.length ≤ stackLimit := ((bounded_new code).of_reaches there).stack
    obtain ⟨i, position, found, turns⟩ := exists_turns_of_step low step
    have waits (e : Machine × σ) (same : Reaches code (n + 1) ({}, host) e) :
        caller :: outer <:+ e.1.callers := by
      cases same.unique reached
      exact Frame.suffix_of_split split
    rcases turns.split split with ⟨inner₀, x₀, waiting, unit⟩ | ⟨rfl, rfl, rfl, entered, callers⟩
    · -- The frame was waiting before the step.
      obtain ⟨inner₁, x₁, earlier, unit₁⟩ :
          ∃ inner₁ x₁, d.frame :: d.callers = inner₁ ++ x₁ :: caller :: outer ∧ x₁.unit = x₀.unit :=
        Frame.exists_split_of_unit waiting rfl
      have pending := ih there earlier
      rw [unit₁, unit] at pending
      exact pending.succ waits
    · -- The step has left the frame waiting.
      have makes : d.Makes code before _ _ x.unit :=
        ⟨position, m, left, found, congrArg (Frame.mk d.frame.unit) (Int.add_zero _), rfl, step,
          entered, callers⟩
      exact makes.pending there waits

end Machine

/-! ## How a run comes to a fault -/

/-- What ends a run with a fault, and makes its trace: a step that fails, or, behind a step that
ends the run, a host that can not send on what was written. -/
inductive Fault.Ends {σ : Type} [Host σ] (code : Bytecode) (m : Machine) (left : σ) : Fault → Prop
  | fails {cause : Fault.Cause} {m' : Machine} {behind : σ} :
      m.step code left = .fault cause m' behind → Ends code m left ⟨cause, m'.trace⟩
  | flushes {result : Int32} {m' : Machine} {reason : String} {behind lost : σ} :
      m.step code left = .halt result m' behind → Host.flush behind = (.error reason, lost) →
      Ends code m left ⟨.flush reason, m'.trace⟩

namespace Machine

variable {σ : Type} [Host σ] {code : Bytecode} {m m' : Machine} {host left left' : σ}

/-- A run that reports a fault has come to a machine where this fault ends it. -/
theorem exists_ends_of_run {limit : Nat} {report : Report} {f : Fault}
    (ended : ({} : Machine).run code limit host = .done report m' left')
    (fault : report.fault = some f) :
    ∃ n m left, Reaches code n ({}, host) (m, left) ∧ f.Ends code m left := by
  unfold run at ended
  cases stopped : steps code limit {} host with
  | broken _ _ | unfinished =>
    rw [stopped] at ended
    cases ended
  | fault cause d behind =>
    obtain ⟨n, m, left, reached, step⟩ := reaches_of_steps (congrArg Stop.last? stopped)
    rw [stopped] at ended
    cases ended
    cases fault
    exact ⟨n, m, left, reached, .fails step⟩
  | halt result d behind =>
    obtain ⟨n, m, left, reached, step⟩ := reaches_of_steps (congrArg Stop.last? stopped)
    rw [stopped] at ended
    simp only [finish] at ended
    split at ended
    · next reason lost refused =>
      cases ended
      cases fault
      exact ⟨n, m, left, reached, .flushes step refused⟩
    · cases ended
      cases fault

/-- A step that ends the run leaves the frames as they are, but for the bytes it has consumed. -/
theorem exists_of_step_halt (low : m.stack.length ≤ stackLimit) {result : Int32}
    (halt : m.step code left = .halt result m' left') :
    m.fetch code = .ended ∨ ∃ i position, m.fetch code = .instruction i position ∧
      m'.frame = { unit := m.frame.unit, ip := lastByte position i.opcode } ∧
        m'.callers = m.callers := by
  have step := step_eq_of_fetch m code left
  rw [halt] at step
  cases found : m.fetch code with
  | before | unknown _ _ | cut _ _ =>
    rw [found] at step
    cases step
  | ended => exact .inl rfl
  | instruction i position =>
    have fits := step_fits low found left
    rw [halt] at fits
    exact .inr ⟨i, position, rfl, fits.2⟩

/-- An instruction that fails by the doing of the program or its host is one of those that can. -/
theorem Fails.opcode_mem {i : Instruction} {cause : Fault.Cause} {stack : List Int32}
    (fails : m.Fails code left i cause stack) (own : cause.IsOwn) : i.opcode ∈ cause.opcodes := by
  cases fails with
  | full => exact absurd rfl own.room
  | defineWithoutTable | callWithoutTable => exact absurd rfl own.table
  | load | store | read | write | collide | unregistered | deep =>
    simp [Instruction.opcode, Fault.Cause.opcodes]

/-- Only a call that goes too deep overflows, unless the operand stack is full. -/
theorem Fails.deep_of_kind {i : Instruction} {cause : Fault.Cause} {stack : List Int32}
    (fails : m.Fails code left i cause stack) (own : cause.IsOwn)
    (kind : cause.kind = .stackOverflow) : Fault.maxFrames ≤ m.depth := by
  cases fails with
  | full => exact absurd rfl own.room
  | deep top deep => exact deep
  | _ => cases kind

/-! ## The entries -/

/-- A frame that stands before an instruction has its opcode next. -/
theorem at_of_fetch {i : Instruction} {position : Nat} (begins : m.frame.Begins code)
    (found : m.fetch code = .instruction i position) :
    ({ unit := m.frame.unit, ip := position } : Frame).At code i.opcode := by
  obtain ⟨other, next, begins⟩ := begins
  obtain ⟨place, byte, -⟩ : m.frame.ip + 1 = position ∧ _ ∧ _ := fetch_eq_iff.1 found
  obtain rfl : other = position := by omega
  exact ⟨other, rfl, begins, byte⟩

/-- Where a machine that takes proper steps comes to a fault, there is an instruction that can fail
for this cause, or the last one of the main unit, and the trace has the place of its opcode. -/
theorem exists_of_ends {p : Program} {f : Fault} (low : m.stack.length ≤ stackLimit)
    (proper : (m.step code left).Proper p code m) (ends : f.Ends code m left) :
    ∃ i position, m.fetch code = .instruction i position ∧ i.opcode ∈ f.cause.opcodes ∧
      f.trace = ({ unit := m.frame.unit, ip := position } :: m.callers).map Frame.entry ∧
      (∀ reason, f.cause = .flush reason →
        m.frame.unit = none ∧ m.callers = [] ∧ position + 1 = code.main.size) ∧
      (f.cause.kind = .stackOverflow → Fault.maxFrames ≤ m.depth) := by
  cases ends with
  | @fails cause m' behind step =>
    rw [step] at proper
    obtain ⟨own, -⟩ := proper
    rcases exists_of_step_fault low step with ⟨b, position, -, rfl, -⟩ |
      ⟨i, position, stack, found, fails, rfl⟩
    · exact absurd rfl own.valid
    · have member := fails.opcode_mem own
      refine ⟨i, position, found, member, ?_, ?_, fails.deep_of_kind own⟩
      · rw [← Fault.Cause.lastByte_of_mem_opcodes member position]
        rfl
      · rintro reason rfl
        cases fails
  | @flushes result m' reason behind lost step refused =>
    rw [step] at proper
    obtain ⟨main, outermost, place, last, -⟩ := proper
    have unit : code.unit m.frame.unit = code.main := by
      rw [main]
      rfl
    rcases exists_of_step_halt low step with ended | ⟨i, position, found, frame, callers⟩
    · -- The machine is at the last byte of its unit and not behind it.
      obtain ⟨position, next, outside⟩ : ∃ position : Nat, m.frame.ip + 1 = position ∧ _ :=
        fetch_eq_iff.1 ended
      rw [unit] at outside
      omega
    · obtain ⟨next, byte, -⟩ : m.frame.ip + 1 = position ∧ _ ∧ _ := fetch_eq_iff.1 found
      have size : position + 1 = code.main.size := by omega
      have final : code.main[position]? = some Opcode.returnValue.toByte := by
        rw [← last, Array.back?_eq_getElem?, ← size, Nat.add_sub_cancel]
      rw [unit, final] at byte
      have opcode : Opcode.returnValue = i.opcode := toByte_inj (Option.some.inj byte)
      refine ⟨i, position, found, ?_, ?_, ?_, nofun⟩
      · rw [← opcode]
        exact List.mem_singleton_self _
      · show m'.frame.entry :: m'.callers.map Frame.entry = _
        rw [frame, callers, ← opcode]
        rfl
      · exact fun _ _ => ⟨main, outermost, size⟩

end Machine

/-- What the fault of a run on a new machine tells: after `n` steps the run has come to the machine
`m`, where the instruction `i` at `position` comes next. -/
structure Fault.Located {σ : Type} [Host σ] (code : Bytecode) (host : σ) (f : Fault) (n : Nat)
    (m : Machine) (left : σ) (i : Instruction) (position : Nat) : Prop where
  reached : Reaches code n ({}, host) (m, left)
  fetched : m.fetch code = .instruction i position
  /-- There the fault ends the run. -/
  ends : f.Ends code m left
  /-- The instruction is one that can fail for the cause. -/
  opcode : i.opcode ∈ f.cause.opcodes
  /-- If the cause is that what was written can not be sent on, it is the last one of the main
  unit. -/
  flushed : ∀ reason, f.cause = .flush reason →
    m.frame.unit = none ∧ m.callers = [] ∧ position + 1 = code.main.size
  /-- The trace has an entry for each active frame, innermost first, and in the first one the place
  of the instruction's opcode. -/
  trace : f.trace = ({ unit := m.frame.unit, ip := position } :: m.callers).map Frame.entry
  innermost : ({ unit := m.frame.unit, ip := position } : Frame).At code i.opcode
  /-- Every frame that waits is at a call of the unit in front of it, and this call is pending. -/
  waiting : ∀ inner x caller outer, m.frame :: m.callers = inner ++ x :: caller :: outer →
    caller.At code .invoke ∧ code.Pending host n caller outer x.unit
  /-- The last entry, and no other, is the main unit. -/
  outermost : ∃ inner, f.trace.map Entry.unit = inner ++ [.missing] ∧ .missing ∉ inner
  length : 1 ≤ f.trace.length ∧ f.trace.length ≤ 1024
  /-- Calls go too deep only when all frames are active. -/
  full : f.cause.kind = .stackOverflow → f.trace.length = 1024

/-- **Traces are faithful.** Whatever a run of a built program reports as its fault, the trace has
the places of the active units: that of the instruction that failed, which is one that can, and
behind it those of the calls that are pending, out to the main unit. -/
theorem Fault.located_of_run {σ : Type} [Host σ] {source : List UInt8} {code : Bytecode}
    (built : build source = .ok code) (short : code.Short) {host : σ} {limit : Nat}
    {report : Report} {final : Machine} {behind : σ}
    (ended : ({} : Machine).run code limit host = .done report final behind) {f : Fault}
    (fault : report.fault = some f) :
    ∃ n m left i position, f.Located code host n m left i position := by
  obtain ⟨p, read, compiled⟩ := exists_of_build built
  have emitted := Program.emitted_of_compile compiled
  have served := Program.served_of_parse read
  have order {k : Nat} {d : Machine} {before : σ}
      (reached : Reaches code k ({}, host) (d, before)) : d.InOrder p :=
    InOrder.of_reaches emitted short served reached (inOrder_new p)
  obtain ⟨n, m, left, reached, ends⟩ := exists_ends_of_run ended fault
  have bounded : m.Bounded code := (bounded_new code).of_reaches reached
  have proper := step_inOrder emitted short served (order reached) left
  obtain ⟨i, position, found, opcode, trace, flushed, deep⟩ :=
    exists_of_ends bounded.stack proper ends
  have length : f.trace.length = m.depth := by
    rw [trace, List.length_map]
    rfl
  have most : m.depth ≤ 1024 := bounded.frames.depth
  refine ⟨n, m, left, i, position, reached, found, ends, opcode, flushed, trace, ?_, ?_, ?_, ?_, ?_⟩
  · exact at_of_fetch ((order reached).stands.begins emitted) found
  · intro inner x caller outer split
    have pending := pending_of_reaches reached split
    refine ⟨?_, pending⟩
    -- The frame has stood at the call ever since it made it.
    obtain ⟨k, d, before, -, there, ⟨place, d', left', call, rfl, -⟩, -⟩ := pending
    exact at_of_fetch ((order there).stands.begins emitted) call
  · obtain ⟨inner, handles, others⟩ := bounded.frames.chain.handles
    refine ⟨inner, ?_, others⟩
    rw [trace, List.map_map]
    exact handles
  · rw [length]
    exact ⟨Nat.le_add_left 1 _, most⟩
  · intro kind
    rw [length]
    exact Nat.le_antisymm most (deep kind)

/-- A procedure that reads, in front of a host that can not: the call of the procedure is
pending. -/
theorem Fault.located_of_run_in_call :
    let host : Host.Script := { reads := [.error "closed"] }
    ∃ code, build "(,):".toUTF8.toList = .ok code ∧ code.Short ∧
      ∃ limit report final behind f,
        ({} : Machine).run code limit host = .done report final behind ∧
        report.fault = some f ∧ f.cause = .read "closed" ∧
        f.trace.map Entry.unit = [⟨0⟩, .missing] ∧
        ∃ n m left i position, f.Located code host n m left i position := by
  intro host
  let p : Program := { main := [.register 0, .call], procedures := [⟨0, [.read]⟩], calls := 1 }
  have read : Program.parse "(,):".toUTF8.toList = .ok p := by cbv
  obtain ⟨code, compiled, short⟩ : ∃ code, p.compile = .ok code ∧ code.Short :=
    ⟨_, rfl, by decide, by decide⟩
  have built : build "(,):".toUTF8.toList = .ok code := by
    rw [build, buildFor, read]
    exact congrArg (Except.mapError BuildError.compile) compiled
  obtain ⟨registry, registered, known⟩ :
      ∃ r, Registry.empty.register 0 0 = .ok r ∧ r.table.find? 0 = some ⟨0⟩ := ⟨_, rfl, rfl⟩
  have position : p.start.position? = some 0 := by decide
  have zero : p.start.cell 0 = 0 := by simp [Store.cell, Program.start]
  have started : p.start.registry = some .empty := rfl
  let s : Store := { p.start with registry := some registry }
  have performed : p.start.perform host (.register 0) = .done s host := by
    simp only [Store.perform, Store.atCell, position, Store.bind, started, zero, registered]
    rfl
  have callee : s.callee p.procedures [Handle.missing].length =
      .ok (⟨0, [.read]⟩, { s with lastKey := 0 }) := by
    have there : s.position? = some 0 := position
    have key : s.cell 0 = 0 := zero
    simp only [Store.callee, there, key, s, known]
    rfl
  obtain ⟨left, refused⟩ : ∃ left, ({ s with lastKey := 0 } : Store).perform host .read =
      .fault (.read "closed") { s with lastKey := 0 } left := ⟨_, rfl⟩
  let o : Outcome Host.Script := .fault (.read "closed") { s with lastKey := 0 } left
  have body : p.evalUnder [⟨0⟩, .missing] 0 [.read] { s with lastKey := 0 } host =
      some (o, [⟨0⟩, .missing]) := by
    rw [Program.evalUnder_leaf, refused]
    · rfl
    all_goals simp
  have call : p.evalUnder [.missing] 1 [.call] s host = some (o, [⟨0⟩, .missing]) := by
    rw [Program.evalUnder_call_ok callee, body]
    rfl
  have main : p.evalUnder [.missing] 1 [.register 0, .call] p.start host =
      some (o, [⟨0⟩, .missing]) := by
    rw [Program.evalUnder_leaf, performed]
    · exact call
    all_goals simp
  have seen : p.sight 1 host = some (o.behaviour.flush, [⟨0⟩, .missing]) :=
    congrArg (Option.map _) main
  have failed : o.behaviour.flush.fault = some (.read "closed") := rfl
  obtain ⟨limit, shows, sights⟩ := Program.run_sights_of_sight compiled short seen
  cases ended : ({} : Machine).run code limit host with
  | broken _ _ | unfinished =>
    rw [ended] at shows
    exact shows.elim
  | done report final behind =>
    rw [ended] at shows
    obtain ⟨f, fault, cause⟩ := Option.map_eq_some_iff.1 (shows.2.1.trans failed)
    exact ⟨code, built, short, limit, report, final, behind, f, ended, fault, cause,
      sights report final behind f ended fault, Fault.located_of_run built short ended fault⟩

end TapeLang
