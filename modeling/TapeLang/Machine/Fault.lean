/-
# Faults

A running program can fail in ways that are its own doing: each has a kind, a reason in words, and a
trace that says where every active unit stands, innermost first.
-/
import TapeLang.Machine.Table

namespace TapeLang

/-- The kinds of faults. -/
inductive Fault.Kind where
  | keyCollision
  | unregisteredCall
  | tapeBounds
  | stackOverflow
  | noTable
  | io
  | invalidProgram
deriving DecidableEq, Repr

namespace Fault.Kind

/-- How a kind is printed. -/
def text : Kind → String
  | keyCollision => "key collision"
  | unregisteredCall => "unregistered call"
  | tapeBounds => "tape bounds"
  | stackOverflow => "stack overflow"
  | noTable => "no dispatch table"
  | io => "io"
  | invalidProgram => "invalid program"

/-- The kind of a number; numbers that have none stand for an invalid program. -/
def ofNumber : Int → Kind
  | 0 => keyCollision
  | 1 => unregisteredCall
  | 2 => tapeBounds
  | 3 => stackOverflow
  | 4 => noTable
  | 5 => io
  | _ => invalidProgram

end Fault.Kind

/-- The limit on active units. -/
def Fault.maxFrames : Nat := 1024

/-- What went wrong. -/
inductive Fault.Cause where
  /-- A key is bound to a second procedure. -/
  | keyCollision (handle : Handle) (collision : Table.Collision)
  /-- A call finds no procedure; the keys that are bound. -/
  | unregisteredCall (key : Int32) (registered : List Int32)
  /-- A cell outside the tape is used. -/
  | tapeBounds (pointer : Int32) (size : Nat)
  /-- Calls are nested too deep. -/
  | callDepth
  /-- The operand stack is full. -/
  | operandStack
  /-- A call without a table. -/
  | callWithoutTable
  /-- A procedure definition without a table. -/
  | definitionWithoutTable
  /-- The host could not read. -/
  | read (reason : String)
  /-- The host could not write. -/
  | write (reason : String)
  /-- The host could not send on what was written. -/
  | flush (reason : String)
  /-- A byte that begins no instruction. -/
  | unknownOpcode (opcode : UInt8)
deriving DecidableEq, Repr

namespace Fault.Cause

/-- The kind of a cause. -/
def kind : Cause → Kind
  | keyCollision _ _ => .keyCollision
  | unregisteredCall _ _ => .unregisteredCall
  | tapeBounds _ _ => .tapeBounds
  | callDepth | operandStack => .stackOverflow
  | callWithoutTable | definitionWithoutTable => .noTable
  | read _ | write _ | flush _ => .io
  | unknownOpcode _ => .invalidProgram

/-- A cause in words. -/
def reason : Cause → String
  | keyCollision handle collision => "cannot register " ++ handle.text ++ ": " ++ collision.message
  | unregisteredCall key registered =>
    "no procedure registered for key " ++ Decimal.text key.toInt ++ " (registered: [" ++
      " ".intercalate (registered.map fun k => Decimal.text k.toInt) ++ "])"
  | tapeBounds pointer size =>
    "pointer " ++ Decimal.text pointer.toInt ++ " outside tape [0, " ++ size.repr ++ ")"
  | callDepth => "call depth exceeds " ++ maxFrames.repr ++ " frames"
  | operandStack => "operand stack overflow"
  | callWithoutTable => "call with no dispatch table"
  | definitionWithoutTable => "procedure definition with no dispatch table"
  | read reason => "read: " ++ reason
  | write reason => "write: " ++ reason
  | flush reason => reason
  | unknownOpcode opcode => "unknown opcode: " ++ opcode.toNat.repr

end Fault.Cause

/-- Where an active unit stands; the main unit has the handle of no procedure. -/
structure Fault.Entry where
  unit : Handle
  ip : Int
deriving DecidableEq, Repr

/-- How an entry of a trace is printed. -/
def Fault.Entry.text (e : Entry) : String :=
  let name := if e.unit = .missing then "main" else e.unit.text
  "  in " ++ name ++ " at " ++ Decimal.padded 4 e.ip

/-- A fault: its cause, and where the active units stood, innermost first. -/
structure Fault where
  cause : Fault.Cause
  trace : List Fault.Entry
deriving DecidableEq, Repr

namespace Fault

/-- How a reason is reported with its trace. -/
def report (reason : String) (trace : List Entry) : String :=
  trace.foldl (fun out e => out ++ "\n" ++ e.text) ("Runtime error: " ++ reason)

/-- How a fault is reported. -/
def message (f : Fault) : String :=
  report f.cause.reason f.trace

end Fault

end TapeLang
