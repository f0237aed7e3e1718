/-
# Hosts

What a running program borrows from its surroundings: reading a character, writing one, and sending
on what was written. A host acts on a state of its own, so a run is a function of the host's state
as well.
-/

namespace TapeLang

/-- The primitives behind `,` and `.` on a state `σ`; each answers or gives the reason why it can
not. Reading answers `-1` when there is nothing more to read. -/
class Host (σ : Type) where
  /-- Reads a character. -/
  read : σ → Except String Int32 × σ
  /-- Writes a character. -/
  write : Int32 → σ → Except String Unit × σ
  /-- Sends on what was written. -/
  flush : σ → Except String Unit × σ

namespace Host

/-! ## No surroundings -/

/-- The state of a host without input that drops all output. -/
inductive Silent where
  | silent

instance : Host Silent where
  read s := (.ok (-1), s)
  write _ s := (.ok (), s)
  flush s := (.ok (), s)

/-! ## Prepared answers -/

/-- What was asked of a host. -/
inductive Event where
  | read
  | write (value : Int32)
  | flush
deriving DecidableEq, Repr

/-- Answers prepared for a host, and what was asked of it so far. -/
structure Script where
  /-- The answers to reads; after them reads find nothing more. -/
  reads : List (Except String Int32) := []
  /-- How many writes succeed, if that is limited. -/
  writesLeft : Option Int := none
  /-- The reason why sending on fails, if it does. -/
  flushFailure : Option String := none
  /-- What was asked so far. -/
  events : Array Event := #[]

namespace Script

/-- Records what is asked. -/
def record (s : Script) (e : Event) : Script :=
  { s with events := s.events.push e }

/-- Gives the next prepared answer. -/
def read (s : Script) : Except String Int32 × Script :=
  match s.reads with
  | [] => (.ok (-1), s)
  | answer :: rest => (answer, { s with reads := rest })

/-- Accepts a write while some are left. -/
def write (s : Script) : Except String Unit × Script :=
  match s.writesLeft with
  | none => (.ok (), s)
  | some left =>
    if left = 0 then (.error "write refused", s)
      else (.ok (), { s with writesLeft := some (left - 1) })

/-- Sends on, or fails as prepared. -/
def flush (s : Script) : Except String Unit × Script :=
  match s.flushFailure with
  | none => (.ok (), s)
  | some reason => (.error reason, s)

end Script

instance : Host Script where
  read s := (s.record .read).read
  write value s := (s.record (.write value)).write
  flush s := (s.record .flush).flush

end Host

end TapeLang
