/-
# Typed lines are delivered once and in order

The reader of a terminal asks for bytes with whatever room it has, and between two of its reads
anything may be written to the screen. A line longer than the room comes in pieces, and an empty
line is a newline alone. All the same, what is delivered are the typed lines one after another, each
with its newline: `Terminal.delivers_new`.

The invariant is `Terminal.Delivered`: what was delivered, with what is left of the line returned
last, are the lines that the editor has returned. A read does one of four things
(`Terminal.read_cases`), and each of them keeps it. An interrupt is to the reader what the end of
the input is: the editor returns no line.
-/
import Mathlib
import TapeLang.Stream.Screen

namespace TapeLang

/-- Lines with a newline at the end of each. -/
def terminated (lines : List (List UInt8)) : List UInt8 :=
  lines.flatMap (· ++ [newline])

/-- Lines one after another are terminated one part after the other. -/
theorem terminated_append (lines lines' : List (List UInt8)) :
    terminated (lines ++ lines') = terminated lines ++ terminated lines' :=
  List.flatMap_append

theorem terminated_singleton (line : List UInt8) : terminated [line] = line ++ [newline] :=
  List.flatMap_singleton ..

/-- An interrupt ends the typing: what is typed behind it makes no difference. This is about the
keys of the line editor, as `typedLines` reproduces them. -/
theorem typedLines_interrupt (line keys after : List UInt8) :
    typedLines line (keys ++ 3 :: after) = typedLines line (keys ++ [3]) := by
  induction keys generalizing line with
  | nil => rfl
  | cons key keys ih => simp only [List.cons_append, typedLines, ih]

namespace Terminal

variable {δ : Type} {lines : List (List UInt8)} {answers : List (List UInt8 × Option Failure)}
  {t : Terminal δ}

/-! ## What a read does -/

/-- What is left of a line is delivered first, and after the end of the input nothing is delivered.
Else the editor is asked, and returns the next line or meets the end. -/
theorem read_cases (t : Terminal δ) (room : Nat) :
    (t.pending ≠ [] ∧ t.read room = (t.pending.take room, none,
      { t with tails := t.tails.push t.screen.tail, pending := t.pending.drop room })) ∨
    (t.pending = [] ∧ t.closed = true ∧ t.read room = ([], some .endOfInput,
      { t with tails := t.tails.push t.screen.tail })) ∨
    (t.pending = [] ∧ t.closed = false ∧ t.lines = [] ∧ t.read room = ([], some .endOfInput,
      { t with
        screen := { t.screen with tail := [] }, closed := true
        prompts := t.prompts.push t.screen.tail, tails := t.tails.push t.screen.tail })) ∨
    ∃ line rest, t.pending = [] ∧ t.closed = false ∧ t.lines = line :: rest ∧
      t.read room = ((line ++ [newline]).take room, none,
        { t with
          screen := { t.screen with tail := [] }, lines := rest,
          pending := (line ++ [newline]).drop room
          prompts := t.prompts.push t.screen.tail, tails := t.tails.push t.screen.tail }) := by
  by_cases empty : t.pending = []
  · cases closed : t.closed with
    | true => exact .inr (.inl ⟨empty, rfl, by simp [read, empty, closed]⟩)
    | false =>
      cases next : t.lines with
      | nil => exact .inr (.inr (.inl ⟨empty, rfl, rfl, by simp [read, ask, empty, closed, next]⟩))
      | cons line rest =>
        exact .inr
          (.inr (.inr ⟨line, rest, empty, rfl, rfl, by simp [read, ask, empty, closed, next]⟩))
  · exact .inl ⟨empty, by simp [read, empty]⟩

/-! ## Reading and writing in any order -/

/-- The answers to reads so far, with whatever is written to the terminal between them. -/
inductive Served [Device δ] (start : Terminal δ) :
    List (List UInt8 × Option Failure) → Terminal δ → Prop
  | start : Served start [] start
  | read {answers : List (List UInt8 × Option Failure)} {t : Terminal δ} (room : Nat) :
      Served start answers t →
        Served start (answers ++ [((t.read room).1, (t.read room).2.1)]) (t.read room).2.2
  | write {answers : List (List UInt8 × Option Failure)} {t : Terminal δ} (bytes : List UInt8) :
      Served start answers t → Served start answers (t.write bytes).2.2

/-- All bytes delivered. -/
def bytes (answers : List (List UInt8 × Option Failure)) : List UInt8 :=
  answers.flatMap Prod.fst

/-- The bytes of one more answer come behind those of the others. -/
theorem bytes_snoc (answers : List (List UInt8 × Option Failure))
    (answer : List UInt8 × Option Failure) :
    bytes (answers ++ [answer]) = bytes answers ++ answer.1 := by
  rw [bytes, List.flatMap_append, List.flatMap_singleton, bytes]

/-- What has been delivered and what is left of the line returned last are the lines that the editor
has returned. It has returned one each time but the last, if it met the end of the input then. -/
structure Delivered (lines : List (List UInt8)) (answers : List (List UInt8 × Option Failure))
    (t : Terminal δ) : Prop where
  returned : ∃ typed, lines = typed ++ t.lines ∧ t.prompts.size = typed.length + t.closed.toNat ∧
    terminated typed = bytes answers ++ t.pending
  ended : t.closed = true → t.lines = [] ∧ t.pending = []
  failed : ∀ answer ∈ answers, answer.2.isSome = true → t.closed = true

namespace Delivered

/-- Nothing has been delivered before the first read. -/
theorem new (device : δ) (lines : List (List UInt8)) :
    Delivered lines [] { screen := { inner := device }, lines := lines } :=
  ⟨⟨[], rfl, rfl, rfl⟩, nofun, nofun⟩

/-- Only a terminal that has met the end of the input answers a read with a failure. -/
theorem snoc_failed (h : Delivered lines answers t) {answer : List UInt8 × Option Failure}
    {closed : Bool} (kept : t.closed = true → closed = true)
    (own : answer.2.isSome = true → closed = true) :
    ∀ a ∈ answers ++ [answer], a.2.isSome = true → closed = true := by
  intro a member failed
  rcases List.mem_append.1 member with before | last
  · exact kept (h.failed a before failed)
  · rw [List.mem_singleton.1 last] at failed
    exact own failed

/-- A read keeps what was delivered on record, whatever it answers. -/
theorem read (h : Delivered lines answers t) (room : Nat) :
    Delivered lines (answers ++ [((t.read room).1, (t.read room).2.1)]) (t.read room).2.2 := by
  obtain ⟨typed, all, count, brought⟩ := h.returned
  rcases t.read_cases room with
    ⟨given, same⟩ | ⟨empty, closed, same⟩ | ⟨empty, opened, none, same⟩ |
    ⟨line, rest, empty, opened, next, same⟩
  · rw [same]
    refine ⟨⟨typed, all, count, ?_⟩, ?_, h.snoc_failed id nofun⟩
    · rw [bytes_snoc, brought, List.append_assoc, List.take_append_drop]
    · intro closed
      exact absurd (h.ended closed).2 given
  · rw [same]
    refine ⟨⟨typed, all, count, ?_⟩, h.ended, h.snoc_failed id fun _ => closed⟩
    rw [bytes_snoc, List.append_nil, brought]
  · rw [same]
    refine ⟨⟨typed, all, ?_, ?_⟩, fun _ => ⟨none, empty⟩, h.snoc_failed (fun _ => rfl) fun _ => rfl⟩
    · rw [Array.size_push, count, opened, Bool.toNat_false, Bool.toNat_true]
    · rw [bytes_snoc, List.append_nil, brought]
  · rw [same]
    refine ⟨⟨typed ++ [line], ?_, ?_, ?_⟩, ?_, h.snoc_failed id nofun⟩
    · rw [all, next, List.append_assoc, List.singleton_append]
    · rw [Array.size_push, count, List.length_append, List.length_singleton, opened,
        Bool.toNat_false]
    · rw [empty, List.append_nil] at brought
      rw [bytes_snoc, terminated_append, terminated_singleton, brought, List.append_assoc,
        List.take_append_drop]
    · intro closed
      rw [opened] at closed
      cases closed

/-- Writing delivers nothing. -/
theorem write [Device δ] (h : Delivered lines answers t) (bytes : List UInt8) :
    Delivered lines answers (t.write bytes).2.2 :=
  ⟨h.returned, h.ended, h.failed⟩

/-- Reads and writes in any order keep what was delivered on record. -/
theorem of_served [Device δ] {start : Terminal δ} (before : Delivered lines [] start)
    (served : Served start answers t) : Delivered lines answers t := by
  induction served with
  | start => exact before
  | read room _ ih => exact ih.read room
  | write bytes _ ih => exact ih.write bytes

end Delivered

/-! ## Delivery -/

/-- A read brings bytes, of which there is one at least if there is room, or the end of the input
and nothing else. -/
theorem answer_read (t : Terminal δ) (room : Nat) :
    (t.read room).2.1 = none ∧ (t.read room).1.length ≤ room ∧ (0 < room → (t.read room).1 ≠ []) ∨
      (t.read room).2.1 = some .endOfInput ∧ (t.read room).1 = [] := by
  have front {line : List UInt8} (given : line ≠ []) :
      (line.take room).length ≤ room ∧ (0 < room → line.take room ≠ []) := by
    refine ⟨List.length_take_le .., fun positive none => ?_⟩
    rcases List.take_eq_nil_iff.1 none with zero | nothing
    · omega
    · exact given nothing
  rcases t.read_cases room with ⟨given, same⟩ | ⟨-, -, same⟩ | ⟨-, -, -, same⟩ |
    ⟨line, rest, -, -, -, same⟩
  · rw [same]
    exact .inl ⟨rfl, front given⟩
  · rw [same]
    exact .inr ⟨rfl, rfl⟩
  · rw [same]
    exact .inr ⟨rfl, rfl⟩
  · rw [same]
    exact .inl ⟨rfl, front (by simp)⟩

/-- A read asks the editor once, where nothing is left and the input has not ended, or not at
all. -/
theorem prompts_read (t : Terminal δ) (room : Nat) :
    (t.read room).2.2.prompts = t.prompts ∨
      t.pending = [] ∧ t.closed = false ∧
        (t.read room).2.2.prompts = t.prompts.push t.screen.tail := by
  rcases t.read_cases room with ⟨-, same⟩ | ⟨-, -, same⟩ | ⟨empty, opened, -, same⟩ |
    ⟨_, _, empty, opened, -, same⟩
  · exact .inl (by rw [same])
  · exact .inl (by rw [same])
  · exact .inr ⟨empty, opened, by rw [same]⟩
  · exact .inr ⟨empty, opened, by rw [same]⟩

/-- How a terminal delivers lines to whoever reads from it and writes to it, from a state on. -/
structure Delivers [Device δ] (start : Terminal δ) (lines : List (List UInt8)) : Prop where
  /-- Each time but the last the editor has returned the next of the lines; the last time it may
  have met their end. -/
  returned : ∀ answers t, Served start answers t →
    ∃ typed, lines = typed ++ t.lines ∧ t.prompts.size = typed.length + t.closed.toNat
  /-- What reads have brought is the beginning of the lines. -/
  inOrder : ∀ answers t, Served start answers t → bytes answers <+: terminated lines
  /-- It is the whole of them once a read has been answered with the end of the input. -/
  whole : ∀ answers t, Served start answers t → ∀ answer ∈ answers, answer.2 = some .endOfInput →
    bytes answers = terminated lines
  /-- A read with room brings a byte or the end of the input, and there is no other failure. -/
  answered : ∀ answers t, Served start answers t → ∀ room,
    (t.read room).2.1 = none ∧ (t.read room).1.length ≤ room ∧ (0 < room → (t.read room).1 ≠ []) ∨
      (t.read room).2.1 = some .endOfInput ∧ (t.read room).1 = []
  /-- A read asks the editor once at most, and only if all lines that it has returned have been
  delivered. -/
  asked : ∀ answers t, Served start answers t → ∀ room, (t.read room).2.2.prompts ≠ t.prompts →
    (t.read room).2.2.prompts.size = t.prompts.size + 1 ∧
      bytes answers = terminated (lines.take t.prompts.size)
  /-- When the editor has been asked once more than there are lines, it is not asked again, and
  reads bring the end of the input only. -/
  closed : ∀ answers t, Served start answers t → lines.length < t.prompts.size → ∀ room,
    (t.read room).2.1 = some .endOfInput ∧ (t.read room).1 = [] ∧
      (t.read room).2.2.prompts = t.prompts

/-- **Each typed line is delivered once, and in order.** Whatever lines the editor returns before it
meets the end of the input, with whatever room bytes are asked for, and whatever is written in
between. -/
theorem delivers_new [Device δ] (device : δ) (lines : List (List UInt8)) :
    Delivers { screen := { inner := device }, lines := lines } lines := by
  have held {answers : List (List UInt8 × Option Failure)} {t : Terminal δ}
      (served : Served { screen := { inner := device }, lines := lines } answers t) :
      Delivered lines answers t :=
    (Delivered.new device lines).of_served served
  refine ⟨?_, ?_, ?_, fun _ t _ => t.answer_read, ?_, ?_⟩
  · intro answers t served
    obtain ⟨typed, all, count, -⟩ := (held served).returned
    exact ⟨typed, all, count⟩
  · intro answers t served
    obtain ⟨typed, all, -, brought⟩ := (held served).returned
    rw [all, terminated_append, brought, List.append_assoc]
    exact List.prefix_append _ _
  · intro answers t served answer member failed
    obtain ⟨typed, all, -, brought⟩ := (held served).returned
    obtain ⟨none, nothing⟩ :=
      (held served).ended ((held served).failed answer member (failed ▸ rfl))
    rw [all, none, List.append_nil, brought, nothing, List.append_nil]
  · intro answers t served room asks
    obtain ⟨typed, all, count, brought⟩ := (held served).returned
    rcases t.prompts_read room with same | ⟨empty, opened, pushed⟩
    · exact absurd same asks
    · rw [opened, Bool.toNat_false, Nat.add_zero] at count
      rw [empty, List.append_nil] at brought
      refine ⟨?_, ?_⟩
      · rw [pushed, Array.size_push]
      · rw [all, count, List.take_left, brought]
  · intro answers t served past room
    obtain ⟨typed, all, count, -⟩ := (held served).returned
    have closed : t.closed = true := by
      by_contra opened
      rw [Bool.not_eq_true] at opened
      rw [opened, Bool.toNat_false] at count
      rw [all, List.length_append] at past
      omega
    obtain ⟨-, empty⟩ := (held served).ended closed
    rw [read, closed, empty]
    exact ⟨rfl, rfl, rfl⟩

/-- A line that fills the room: its newline comes with the next read. -/
example :
    let t : Terminal Pipe := { screen := { inner := {} }, lines := [[104, 105], []] }
    (t.read 2).1 = [104, 105] ∧ ((t.read 2).2.2.read 2).1 = [newline] := by
  decide

end Terminal

end TapeLang
