/-
# The machine

A stack machine runs bytecode. Its storage is a tape of 32-bit cells, a pointer, a scratch cell and
a dispatch table; besides these it has an operand stack and a stack of frames, one for each active
unit. A frame knows the offset of the last byte it has consumed: the next instruction begins right
after it.

One step fetches and executes one instruction. It goes on, ends the run with a result, or ends it
with a fault, which leaves the machine ready to be run again. Code that no compiler emits can also
break the machine: `Breakdown` lists how.
-/
import TapeLang.Bytecode
import TapeLang.Machine.Fault
import TapeLang.Machine.Host

namespace TapeLang

/-- An active unit: which one it is, none being the main unit, and the offset of the last byte it
has consumed, which is `-1` before the first. -/
structure Frame where
  unit : Option Nat := none
  ip : Int := -1
deriving DecidableEq, Repr

/-- The handle of a frame's unit. -/
def Frame.handle (f : Frame) : Handle :=
  match f.unit with
  | none => .missing
  | some id => ⟨id⟩

/-- The code of a unit. -/
def Bytecode.unit (b : Bytecode) : Option Nat → Code
  | none => b.main
  | some id => b.procedures[id]?.getD #[]

/-- The state of the machine. -/
structure Machine where
  tape : Array Int32 := #[]
  pointer : Int32 := 0
  scratch : Int32 := 0
  table : Option Table := none
  /-- The key looked up last. -/
  lastKey : Int32 := 0
  /-- The operand stack, top first. -/
  stack : List Int32 := []
  /-- The frame of the unit that runs. -/
  frame : Frame := {}
  /-- The frames that wait for it, innermost first. -/
  callers : List Frame := []

/-- Ways in which code can break the machine. -/
inductive Breakdown where
  /-- A value is popped from an empty stack. -/
  | emptyStack
  /-- An operand runs past the end of its unit. -/
  | operandPastEnd
  /-- A jump back has left the unit at its front. -/
  | negativePosition
  /-- A handle that is no procedure is called while there is no table to report. -/
  | invokeWithoutTable
deriving DecidableEq, Repr

/-- What one step does: it goes on, ends the run with a result, ends it with a fault, or breaks the
machine, of which only the host's state is left. -/
inductive Step (σ : Type) where
  | next (machine : Machine) (host : σ)
  | halt (result : Int32) (machine : Machine) (host : σ)
  | fault (cause : Fault.Cause) (machine : Machine) (host : σ)
  | broken (how : Breakdown) (host : σ)

namespace Machine

variable {σ : Type}

/-! ## The parts of the state -/

/-- The limit on the operand stack. -/
def stackLimit : Nat := 2048

/-- The number of active units. -/
def depth (m : Machine) : Nat :=
  m.callers.length + 1

/-- Where the active units stand, innermost first. -/
def trace (m : Machine) : List Fault.Entry :=
  (m.frame :: m.callers).map fun f => { unit := f.handle, ip := f.ip }

/-- The position of the cell at an index, if it is on the tape. -/
def cell? (m : Machine) (index : Int32) : Option (Fin m.tape.size) :=
  let i := index.toInt.toNat
  if h : 0 ≤ index.toInt ∧ i < m.tape.size then some ⟨i, h.2⟩ else none

/-- Sets the offset of the last byte consumed. -/
def setIp (m : Machine) (ip : Int) : Machine :=
  { m with frame := { m.frame with ip := ip } }

/-- Pushes a value unless the operand stack is full. -/
def push (m : Machine) (value : Int32) (host : σ) : Step σ :=
  if m.stack.length < stackLimit then .next { m with stack := value :: m.stack } host
  else .fault .operandStack m host

/-- Calls a procedure, unless too many units are active. -/
def call (m : Machine) (id : Nat) (host : σ) : Step σ :=
  if m.depth < Fault.maxFrames then
    .next { m with frame := { unit := some id }, callers := m.frame :: m.callers } host
  else .fault .callDepth m host

/-! ## Single instructions -/

/-- Sets a cell. -/
def storeCell (m : Machine) (index value : Int32) (host : σ) : Step σ :=
  match m.cell? index with
  | some i => .next { m with tape := m.tape.set i value } host
  | none => .fault (.tapeBounds index m.tape.size) m host

/-- Pushes a cell. -/
def loadCell (m : Machine) (index : Int32) (host : σ) : Step σ :=
  match m.cell? index with
  | some i => m.push m.tape[i] host
  | none => .fault (.tapeBounds index m.tape.size) m host

/-- Binds a key to a procedure. -/
def bind (m : Machine) (key : Int32) (handle : Handle) (host : σ) : Step σ :=
  match m.table with
  | none => .fault .definitionWithoutTable m host
  | some table =>
    match table.register key handle with
    | .ok table => .next { m with table := some table } host
    | .error collision => .fault (.keyCollision handle collision) m host

/-- Pushes the handle bound to a key. -/
def find (m : Machine) (key : Int32) (host : σ) : Step σ :=
  match m.table with
  | none => .fault .callWithoutTable m host
  | some table => { m with lastKey := key }.push (Int32.ofInt (table.lookup key).id) host

/-- Calls the procedure of a handle. -/
def invoke (m : Machine) (procedures : Nat) (handle : Int32) (host : σ) : Step σ :=
  if 0 ≤ handle.toInt ∧ handle.toInt < procedures then m.call handle.toInt.toNat host
  else
    match m.table with
    | none => .broken .invokeWithoutTable host
    | some table => .fault (.unregisteredCall m.lastKey table.keys) m host

variable [Host σ]

/-- Executes an instruction. The frame stands at the last byte of the instruction, or, for a jump
back, at its opcode. -/
def execute (m : Machine) (code : Bytecode) (host : σ) : Instruction → Step σ
  | .newTape size => .next { m with tape := .replicate size.toNat 0 } host
  | .newTable => .next { m with table := some .empty } host
  | .constant value => m.push value.toInt32 host
  | .loadPointer => m.push m.pointer host
  | .loadScratch => m.push m.scratch host
  | .procedure id => m.push (Int32.ofNat id.toNat) host
  | .storePointer =>
    match m.stack with
    | value :: stack => .next { m with pointer := value, stack := stack } host
    | [] => .broken .emptyStack host
  | .storeScratch =>
    match m.stack with
    | value :: stack => .next { m with scratch := value, stack := stack } host
    | [] => .broken .emptyStack host
  | .loadCell =>
    match m.stack with
    | index :: stack => { m with stack := stack }.loadCell index host
    | [] => .broken .emptyStack host
  | .storeCell =>
    match m.stack with
    | value :: index :: stack => { m with stack := stack }.storeCell index value host
    | _ => .broken .emptyStack host
  | .add =>
    match m.stack with
    | b :: a :: stack => { m with stack := stack }.push (a + b) host
    | _ => .broken .emptyStack host
  | .sub =>
    match m.stack with
    | b :: a :: stack => { m with stack := stack }.push (a - b) host
    | _ => .broken .emptyStack host
  | .read =>
    match Host.read host with
    | (.ok value, host) => m.push value host
    | (.error reason, host) => .fault (.read reason) m host
  | .write =>
    match m.stack with
    | value :: stack =>
      match Host.write value host with
      | (.ok (), host) => .next { m with stack := stack } host
      | (.error reason, host) => .fault (.write reason) { m with stack := stack } host
    | [] => .broken .emptyStack host
  | .jumpZero target =>
    match m.stack with
    | value :: stack =>
      let m := { m with stack := stack }
      .next (if value = 0 then m.setIp (target.toNat - 1) else m) host
    | [] => .broken .emptyStack host
  | .loop distance => .next (m.setIp (m.frame.ip - (distance.toNat + 1))) host
  | .register =>
    match m.stack with
    | handle :: key :: stack => { m with stack := stack }.bind key ⟨handle.toInt⟩ host
    | _ => .broken .emptyStack host
  | .lookup =>
    match m.stack with
    | key :: stack => { m with stack := stack }.find key host
    | [] => .broken .emptyStack host
  | .invoke =>
    match m.stack with
    | handle :: stack => { m with stack := stack }.invoke code.procedures.size handle host
    | [] => .broken .emptyStack host
  | .leave =>
    match m.callers with
    | caller :: callers => .next { m with frame := caller, callers := callers } host
    | [] => .halt 0 m host
  | .returnValue =>
    match m.stack with
    | value :: stack => .halt value { m with stack := stack } host
    | [] => .broken .emptyStack host

/-- The offset of the last byte that an instruction at a position consumes before it is executed:
its operand is consumed, but for that of a jump back. -/
def lastByte (position : Nat) : Opcode → Int
  | .loop => position
  | op => position + Operands.total op.widths

/-- Fetches and executes one instruction. A unit that has been consumed to its end ends the run with
the result zero. -/
def step (m : Machine) (code : Bytecode) (host : σ) : Step σ :=
  let unit := code.unit m.frame.unit
  match m.frame.ip + 1 with
  | .negSucc _ => .broken .negativePosition host
  | .ofNat position =>
    match unit[position]? with
    | none => .halt 0 m host
    | some b =>
      match Opcode.ofByte? b with
      | none => .fault (.unknownOpcode b) (m.setIp position) host
      | some op =>
        match Instruction.withOperandAt? unit (position + 1) op with
        | none => .broken .operandPastEnd host
        | some instruction => (m.setIp (lastByte position op)).execute code host instruction

/-! ## Runs -/

/-- How steps come to an end. -/
inductive Stop (σ : Type) where
  | halt (result : Int32) (machine : Machine) (host : σ)
  | fault (cause : Fault.Cause) (machine : Machine) (host : σ)
  | broken (how : Breakdown) (host : σ)
  /-- The steps allowed were not enough. -/
  | unfinished

/-- Steps until the run ends, but no more than `limit` of them. -/
def steps (code : Bytecode) : (limit : Nat) → Machine → σ → Stop σ
  | 0, _, _ => .unfinished
  | limit + 1, m, host =>
    match m.step code host with
    | .next m host => steps code limit m host
    | .halt result m host => .halt result m host
    | .fault cause m host => .fault cause m host
    | .broken how host => .broken how host

/-- What a run reports: its result, which is zero after a fault of the program, and the fault if
there was one. -/
structure Report where
  result : Int32
  fault : Option Fault
deriving DecidableEq, Repr

/-- How a run ends: with a report, with a broken machine, or not within the steps allowed. -/
inductive Ending (σ : Type) where
  | done (report : Report) (machine : Machine) (host : σ)
  | broken (how : Breakdown) (host : σ)
  | unfinished

/-- Sends on what was written. If that fails and nothing else did, the failure is the fault of the
run. -/
def finish (m : Machine) (report : Report) (host : σ) : Ending σ :=
  match report.fault, Host.flush host with
  | none, (.error reason, host) =>
    .done { report with fault := some ⟨.flush reason, m.trace⟩ } m host
  | _, (_, host) => .done report m host

/-- Runs code on a machine, for no more than `limit` steps. Run again, the machine goes on after the
instruction where it stopped. -/
def run (m : Machine) (code : Bytecode) (limit : Nat) (host : σ) : Ending σ :=
  match steps code limit m host with
  | .halt result m host => m.finish ⟨result, none⟩ host
  | .fault cause m host => m.finish ⟨0, some ⟨cause, m.trace⟩⟩ host
  | .broken how host => .broken how host
  | .unfinished => .unfinished

end Machine

end TapeLang
