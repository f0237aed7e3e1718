/-
# The tail is the line that is open

A screen keeps its tail from write to write, and does so in two ways: a newline ends the line that
was open, and bytes without one go on with it. On a terminal the tail is forgotten whenever the
editor has been asked for a line. After each step it is still what follows the last newline of all
that was written since then, in whatever pieces: `Typescript.remembers_new`.

The invariant is `Typescript.Level`: the tail is the open line of the bytes on record. What the
device behind the screen makes of the writes does not matter to it. The device gets each of them as
it is, and its answers are passed on.
-/
import TapeLang.Proofs.Prompts

namespace TapeLang

/-- How a device answers some writes one after another, and what becomes of it. -/
def Device.writeAll {δ : Type} [Device δ] : List (List UInt8) → δ → List (Nat × Option String) × δ
  | [], device => ([], device)
  | bytes :: rest, device =>
    let (count, failure, device) := Device.write bytes device
    let (answers, device) := writeAll rest device
    ((count, failure) :: answers, device)

namespace Terminal

variable {δ : Type}

/-- The screen is what it was, or the editor has been asked once, and the tail was its prompt and is
forgotten. -/
def MayAsk (t t' : Terminal δ) : Prop :=
  (t'.prompts = t.prompts ∧ t'.screen = t.screen) ∨
    (t'.prompts = t.prompts.push t.screen.tail ∧ t'.screen = { t.screen with tail := [] })

/-- A read asks the editor once or leaves the screen as it was. -/
theorem mayAsk_read (t : Terminal δ) (room : Nat) : t.MayAsk (t.read room).2.2 := by
  rcases t.read_cases room with ⟨-, same⟩ | ⟨-, -, same⟩ | ⟨-, -, -, same⟩ |
    ⟨_, _, -, -, -, same⟩ <;> rw [same]
  · exact .inl ⟨rfl, rfl⟩
  · exact .inl ⟨rfl, rfl⟩
  · exact .inr ⟨rfl, rfl⟩
  · exact .inr ⟨rfl, rfl⟩

/-- An editor that fails has been asked as well. -/
theorem mayAsk_readFailing (t : Terminal δ) (reason : String) (room : Nat) :
    t.MayAsk (t.readFailing reason room).2.2 := by
  unfold readFailing
  split
  · exact .inr ⟨rfl, rfl⟩
  · exact t.mayAsk_read room

end Terminal

/-! ## Typescripts -/

/-- A terminal with a record of what was done at it. -/
structure Typescript (δ : Type) where
  terminal : Terminal δ
  /-- How the writes were answered, in order. -/
  answers : List (Nat × Option String) := []
  /-- The bytes written since the editor was last asked for a line, or since the beginning. -/
  recent : List UInt8 := []

namespace Typescript

variable {δ : Type}

/-- What can be done at a terminal: bytes are written, or they are read with some room. The editor
may fail if it is asked then. -/
inductive Move where
  | write (bytes : List UInt8)
  | read (room : Nat) (failure : Option String)

/-- The bytes that a move writes. -/
def Move.bytes? : Move → Option (List UInt8)
  | write bytes => some bytes
  | read _ _ => none

/-- A new terminal at which these lines are typed. -/
def new (device : δ) (lines : List (List UInt8)) : Typescript δ where
  terminal := { screen := { inner := device }, lines := lines }

variable [Device δ]

/-- Makes a move. The record begins anew when there is one more prompt. -/
def act (s : Typescript δ) : Move → Typescript δ
  | .write bytes =>
    let (count, failure, terminal) := s.terminal.write bytes
    { terminal := terminal, answers := s.answers ++ [(count, failure)],
      recent := s.recent ++ bytes }
  | .read room failure =>
    let (_, _, terminal) :=
      match failure with
      | none => s.terminal.read room
      | some reason => s.terminal.readFailing reason room
    let asked := terminal.prompts.size ≠ s.terminal.prompts.size
    { s with terminal := terminal, recent := if asked then [] else s.recent }

/-- Makes moves one after another. -/
def after (s : Typescript δ) (moves : List Move) : Typescript δ :=
  moves.foldl act s

theorem after_cons (s : Typescript δ) (move : Move) (moves : List Move) :
    s.after (move :: moves) = (s.act move).after moves :=
  List.foldl_cons ..

/-- A read asks the editor at most once. It leaves the record as it is, or ends it. -/
theorem act_read (s : Typescript δ) (room : Nat) (failure : Option String) :
    (s.act (.read room failure)).answers = s.answers ∧
      ((s.act (.read room failure)).terminal.screen = s.terminal.screen ∧
          (s.act (.read room failure)).recent = s.recent ∨
        (s.act (.read room failure)).terminal.screen = { s.terminal.screen with tail := [] } ∧
          (s.act (.read room failure)).recent = []) := by
  have asks : s.terminal.MayAsk (s.act (.read room failure)).terminal := by
    cases failure with
    | none => exact s.terminal.mayAsk_read room
    | some reason => exact s.terminal.mayAsk_readFailing reason room
  have recent : (s.act (.read room failure)).recent =
      if (s.act (.read room failure)).terminal.prompts.size ≠ s.terminal.prompts.size then []
        else s.recent := rfl
  refine ⟨rfl, ?_⟩
  rcases asks with ⟨prompts, screen⟩ | ⟨prompts, screen⟩
  · left
    refine ⟨screen, ?_⟩
    rw [recent, prompts, if_neg (not_not_intro rfl)]
  · right
    refine ⟨screen, ?_⟩
    rw [recent, prompts, Array.size_push, if_pos (Nat.succ_ne_self _)]

/-! ## The tail -/

/-- The tail is the open line of the bytes on record. -/
def Level (s : Typescript δ) : Prop :=
  s.terminal.screen.tail = lastLine s.recent

/-- The tail stays the open line at each move. -/
theorem Level.act {s : Typescript δ} (h : s.Level) (move : Move) : (s.act move).Level := by
  unfold Level at h ⊢
  cases move with
  | write bytes =>
    have line : lastLine s.terminal.screen.tail = s.terminal.screen.tail := by
      rw [h, lastLine_idem]
    show (s.terminal.screen.write bytes).2.2.tail = lastLine (s.recent ++ bytes)
    rw [Screen.tail_write line, h, lastLine_lastLine_append]
  | read room failure =>
    rcases (s.act_read room failure).2 with ⟨screen, recent⟩ | ⟨screen, recent⟩
    · rw [screen, recent, h]
    · rw [screen, recent, lastLine_nil]

/-- The tail stays the open line after any moves. -/
theorem Level.after {s : Typescript δ} (h : s.Level) (moves : List Move) :
    (s.after moves).Level := by
  induction moves generalizing s with
  | nil => exact h
  | cons move moves ih =>
    rw [after_cons]
    exact ih (h.act move)

omit [Device δ] in
theorem level_new (device : δ) (lines : List (List UInt8)) : (new device lines).Level := rfl

/-! ## The device behind the screen -/

/-- The device behind the screen gets the writes and nothing else, and what it answers is
answered. -/
theorem writeAll_after (s : Typescript δ) (moves : List Move) :
    (s.after moves).answers =
        s.answers ++ (Device.writeAll (moves.filterMap Move.bytes?) s.terminal.screen.inner).1 ∧
      (s.after moves).terminal.screen.inner =
        (Device.writeAll (moves.filterMap Move.bytes?) s.terminal.screen.inner).2 := by
  induction moves generalizing s with
  | nil => exact ⟨(List.append_nil _).symm, rfl⟩
  | cons move moves ih =>
    obtain ⟨answers, inner⟩ := ih (s.act move)
    rw [after_cons, answers, inner]
    cases move with
    | write bytes =>
      refine ⟨?_, rfl⟩
      show s.answers ++ [_] ++ _ = s.answers ++ (_ :: _)
      rw [List.append_assoc, List.singleton_append]
      rfl
    | read room failure =>
      obtain ⟨same, screen⟩ := s.act_read room failure
      have kept : (s.act (.read room failure)).terminal.screen.inner = s.terminal.screen.inner := by
        rcases screen with ⟨screen, -⟩ | ⟨screen, -⟩ <;> rw [screen]
      have none : (Move.read room failure :: moves).filterMap Move.bytes? =
          moves.filterMap Move.bytes? := rfl
      rw [same, kept, none]
      exact ⟨rfl, rfl⟩

/-- What a terminal remembers, and passes on, whatever is done at it from a state on. -/
structure Remembers (start : Typescript δ) : Prop where
  /-- After each step the tail is what follows the last newline of all that was written since the
  editor was last asked for a line. -/
  tail : ∀ moves, AfterNewline (start.after moves).recent (start.after moves).terminal.screen.tail
  /-- So it does not matter how these bytes were cut into writes, nor what came before them, nor how
  they were answered: at any other terminal the same bytes leave the same tail. -/
  pieces : ∀ moves {δ' : Type} [Device δ'] (device : δ') lines moves',
    ((new device lines).after moves').recent = (start.after moves).recent →
      ((new device lines).after moves').terminal.screen.tail =
        (start.after moves).terminal.screen.tail
  /-- The device behind the screen gets each write as it is, and nothing else. What it answers is
  answered. -/
  passed : ∀ moves, ((start.after moves).answers, (start.after moves).terminal.screen.inner) =
    Device.writeAll (moves.filterMap Move.bytes?) start.terminal.screen.inner

/-- **The tail is the last line that is not ended.** Whatever is written and read in whatever order,
whatever the device behind the screen does, and whatever lines the editor returns, also where it
fails at times. -/
theorem remembers_new (device : δ) (lines : List (List UInt8)) : (new device lines).Remembers := by
  refine ⟨?_, ?_, ?_⟩
  · intro moves
    rw [(level_new device lines).after moves]
    exact afterNewline_lastLine _
  · intro moves δ' _ device' lines' moves' same
    rw [(level_new device lines).after moves, (level_new device' lines').after moves', same]
  · intro moves
    obtain ⟨answers, inner⟩ := (new device lines).writeAll_after moves
    rw [answers, inner]
    rfl

/-- The line asked for ends the record. What is written behind it comes in pieces, one of them
empty. -/
example :
    ((new ({} : Pipe) [[104]]).after [.write [97, 10, 98], .read 8 none, .write [99], .write [],
      .write [100]] ).terminal.screen.tail = [99, 100] := by
  decide

end Typescript

end TapeLang
