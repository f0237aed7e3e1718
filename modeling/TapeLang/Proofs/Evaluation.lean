/-
# The meaning of programs

A program is evaluated directly on its tree, without code. It works on a store: a tape of 30000
cells of 32 bits, a pointer to one of them, and a dispatch table if the program needs one. A node
that uses the cell under the pointer fails if the pointer is not on the tape; moving the pointer
never fails. A call runs the body that the value of the cell is bound to on the same store, one
level deeper.

Loops and calls may go on for ever, so evaluation has fuel, of which each round of a loop and each
call takes one. Without fuel there is no answer: a program that has no answer with any fuel does not
halt.
-/
import Mathlib
import TapeLang.Machine.Fault
import TapeLang.Machine.Host
import TapeLang.Program

namespace TapeLang

/-! ## Stores -/

/-- A dispatch table whose handles are numbers of two bytes. -/
structure Registry where
  table : Table
  fits : ∀ key handle, table.find? key = some handle → 0 ≤ handle.id ∧ handle.id < 0x10000

namespace Registry

/-- The table without bindings. -/
def empty : Registry where
  table := .empty
  fits := by simp

/-- The handle of a procedure's number: the number cut down to two bytes. -/
def handle (id : Int) : Handle :=
  ⟨id % 0x10000⟩

/-- A number of two bytes is its own handle. -/
theorem handle_of_fits {id : Int} (low : 0 ≤ id) (high : id < 0x10000) : handle id = ⟨id⟩ := by
  rw [handle, Int.emod_eq_of_lt low high]

/-- Binds a key that is not bound yet to a procedure. -/
def register (r : Registry) (key : Int32) (id : Int) : Except Table.Collision Registry :=
  match bound : r.table.register key (handle id) with
  | .error collision => .error collision
  | .ok table =>
    .ok {
      table := table
      fits := by
        intro k h found
        rw [Table.find?_of_register bound] at found
        split at found
        · cases found
          simp only [handle]
          omega
        · exact r.fits k h found }

theorem map_table_register (r : Registry) (key : Int32) (id : Int) :
    (r.register key id).map Registry.table = r.table.register key (handle id) := by
  unfold register
  split
  · next bound => exact bound.symm
  · next bound => exact bound.symm

end Registry

/-- What a program works on. The last two fields only record, and are never read by a program:
`scratch` is the last sum stored in a cell, and `lastKey` the key of the last call. -/
structure Store where
  tape : Vector Int32 30000 := .replicate 30000 0
  pointer : Int32 := 0
  registry : Option Registry := none
  scratch : Int32 := 0
  lastKey : Int32 := 0

/-- How nodes end: with a store, or with a fault and the store that it leaves. -/
inductive Outcome (σ : Type) where
  | done (store : Store) (host : σ)
  | fault (cause : Fault.Cause) (store : Store) (host : σ)

/-- Goes on after nodes that end without a fault. -/
def Outcome.andThen {σ : Type} (o : Option (Outcome σ))
    (next : Store → σ → Option (Outcome σ)) : Option (Outcome σ) :=
  match o with
  | some (.done s host) => next s host
  | stopped => stopped

namespace Store

variable {σ : Type}

/-- The cell under the pointer, if it is on the tape. -/
def position? (s : Store) : Option (Fin 30000) :=
  if h : 0 ≤ s.pointer.toInt ∧ s.pointer.toInt < 30000 then some ⟨s.pointer.toInt.toNat, by omega⟩
  else none

/-- The value of a cell. -/
def cell (s : Store) (i : Fin 30000) : Int32 :=
  s.tape[i]

/-- Sets a cell. -/
def setCell (s : Store) (i : Fin 30000) (value : Int32) : Store :=
  { s with tape := s.tape.set i value }

/-- The fault of a pointer that is not on the tape. -/
def outside (s : Store) : Fault.Cause :=
  .tapeBounds s.pointer 30000

/-- Uses the cell under the pointer. -/
def atCell (s : Store) (host : σ) (use : Fin 30000 → Outcome σ) : Outcome σ :=
  match s.position? with
  | some i => use i
  | none => .fault s.outside s host

/-- Binds the value of a cell to a procedure. -/
def bind (s : Store) (host : σ) (id : Int) (i : Fin 30000) : Outcome σ :=
  match s.registry with
  | none => .fault .definitionWithoutTable s host
  | some r =>
    match r.register (s.cell i) id with
    | .ok r => .done { s with registry := some r } host
    | .error collision => .fault (.keyCollision (Registry.handle id) collision) s host

/-- What a node does that holds no others and calls none. -/
def perform [Host σ] (s : Store) (host : σ) : Node → Outcome σ
  | .move delta => .done { s with pointer := s.pointer + Int32.ofInt delta } host
  | .amend delta =>
    s.atCell host fun i =>
      let value := s.cell i + Int32.ofInt delta
      .done { s.setCell i value with scratch := value } host
  | .zero => s.atCell host fun i => .done (s.setCell i 0) host
  | .read =>
    match Host.read host with
    | (.ok value, host) => s.atCell host fun i => .done (s.setCell i value) host
    | (.error reason, host) => .fault (.read reason) s host
  | .write =>
    s.atCell host fun i =>
      match Host.write (s.cell i) host with
      | (.ok (), host) => .done s host
      | (.error reason, host) => .fault (.write reason) s host
  | .register id => s.atCell host (s.bind host id)
  | _ => .done s host

/-- The procedure that a call runs at a depth of calls, or the fault of the call. A call keeps its
key. -/
def callee (s : Store) (procedures : List Procedure) (depth : Nat) :
    Except (Fault.Cause × Store) (Procedure × Store) :=
  match s.position?, s.registry with
  | none, _ => .error (s.outside, s)
  | some _, none => .error (.callWithoutTable, s)
  | some i, some r =>
    let key := s.cell i
    let kept := { s with lastKey := key }
    match (r.table.find? key).bind fun h => procedures[h.id.toNat]? with
    | none => .error (.unregisteredCall key r.table.keys, kept)
    | some procedure =>
      if depth < Fault.maxFrames then .ok (procedure, kept) else .error (.callDepth, kept)

end Store

/-! ## Programs -/

namespace Program

variable {σ : Type} [Host σ]

/-- Evaluates nodes one after another at a depth of calls. -/
def evalAll (p : Program) (depth fuel : Nat) (nodes : List Node) (s : Store) (host : σ) :
    Option (Outcome σ) :=
  match nodes with
  | [] => some (.done s host)
  | .sequence body :: rest =>
    Outcome.andThen (evalAll p depth fuel body s host) fun s host =>
      evalAll p depth fuel rest s host
  | .loop body :: rest =>
    match s.position? with
    | none => some (.fault s.outside s host)
    | some i =>
      if s.cell i = 0 then evalAll p depth fuel rest s host
      else
        match fuel with
        | 0 => none
        | fuel + 1 =>
          Outcome.andThen (evalAll p depth fuel body s host) fun s host =>
            evalAll p depth fuel (.loop body :: rest) s host
  | .call :: rest =>
    match s.callee p.procedures depth with
    | .error (cause, s) => some (.fault cause s host)
    | .ok (procedure, s) =>
      match fuel with
      | 0 => none
      | fuel + 1 =>
        Outcome.andThen (evalAll p (depth + 1) fuel procedure.body s host) fun s host =>
          evalAll p depth (fuel + 1) rest s host
  | leaf :: rest =>
    Outcome.andThen (some (s.perform host leaf)) fun s host => evalAll p depth fuel rest s host
termination_by (fuel, sizeOf nodes)

/-- What a program begins with. -/
def start (p : Program) : Store where
  registry := if p.dispatches then some .empty else none

end Program

/-! ## Behaviours -/

/-- What can be seen of a run that is over: its result, which is zero after a fault of the program,
the fault if there was one, and what is left of the store and the host. -/
structure Behaviour (σ : Type) where
  result : Int32
  fault : Option Fault.Cause
  store : Store
  host : σ

namespace Behaviour

variable {σ : Type} [Host σ]

/-- Sends on what was written, which is the fault of a run that fails at nothing else. -/
def flush (b : Behaviour σ) : Behaviour σ :=
  match b.fault, Host.flush b.host with
  | none, (.error reason, host) => { b with fault := some (.flush reason), host := host }
  | _, (_, host) => { b with host := host }

end Behaviour

/-- The behaviour of a program whose main body ends in some way: its result is the cell under the
pointer, if it is on the tape. -/
def Outcome.behaviour {σ : Type} : Outcome σ → Behaviour σ
  | .done s host =>
    match s.position? with
    | some i => { result := s.cell i, fault := none, store := s, host := host }
    | none => { result := 0, fault := some s.outside, store := s, host := host }
  | .fault cause s host => { result := 0, fault := some cause, store := s, host := host }

/-- The behaviour of a program, if it has one with this fuel. -/
def Program.eval {σ : Type} [Host σ] (p : Program) (fuel : Nat) (host : σ) : Option (Behaviour σ) :=
  (p.evalAll 1 fuel p.main p.start host).map fun o => o.behaviour.flush

end TapeLang
