/-
# The prompt of each line is what stands on the line

On a terminal the line editor is given a prompt each time it is asked for a line: the tail of what
was sent to the screen. Between a program and the screen there is a buffer, and most reads are
answered from bytes of the line that was typed last. Still each prompt is the part after the last
newline of all that was written since the line before it was typed.

The invariant is `Buffered.Shows`: the open line on the screen, continued by what is in the buffer,
is the open line of what was written since then. A flush moves bytes from the one to the other, and
before the editor is asked the buffer is empty. The values written are kept by a host of its own,
`Dialogue`, in front of which every run is the same as without them. `Dialogue.prompted_new` has the
result for all typed lines.
-/
import TapeLang.Proofs.Lines
import TapeLang.Proofs.Output

namespace TapeLang

/-! ## Open lines -/

/-- The part of bytes after their last newline, or all of them if there is none. -/
def AfterNewline (bytes line : List UInt8) : Prop :=
  newline ∉ line ∧ (bytes = line ∨ ∃ before, bytes = before ++ newline :: line)

/-- What comes before the first newline has none, and is all if no newline follows. -/
theorem takeWhile_newline (bytes : List UInt8) :
    newline ∉ bytes.takeWhile (· != newline) ∧
      (bytes = bytes.takeWhile (· != newline) ∨
        ∃ rest, bytes = bytes.takeWhile (· != newline) ++ newline :: rest) := by
  induction bytes with
  | nil => exact ⟨List.not_mem_nil, .inl rfl⟩
  | cons b bytes ih =>
    rw [List.takeWhile_cons]
    by_cases ends : b = newline
    · rw [ends]
      exact ⟨List.not_mem_nil, .inr ⟨bytes, rfl⟩⟩
    · rw [if_pos (by simpa using ends)]
      constructor
      · intro member
        rcases List.mem_cons.1 member with same | later
        · exact ends same.symm
        · exact ih.1 later
      · rcases ih.2 with none | ⟨rest, found⟩
        · exact .inl (congrArg (b :: ·) none)
        · exact .inr ⟨rest, congrArg (b :: ·) found⟩

/-- The last line is what comes after the last newline. -/
theorem afterNewline_lastLine (bytes : List UInt8) : AfterNewline bytes (lastLine bytes) := by
  obtain ⟨free, whole⟩ := takeWhile_newline bytes.reverse
  unfold lastLine
  constructor
  · rw [List.mem_reverse]
    exact free
  · rcases whole with none | ⟨rest, found⟩
    · left
      rw [← none, List.reverse_reverse]
    · right
      refine ⟨rest.reverse, ?_⟩
      have turned := congrArg List.reverse found
      rwa [List.reverse_reverse, List.reverse_append, List.reverse_cons,
        List.append_assoc] at turned

/-- A line that is open goes on with what comes after it. -/
@[simp] theorem lastLine_lastLine_append (a b : List UInt8) :
    lastLine (lastLine a ++ b) = lastLine (a ++ b) := by
  unfold lastLine
  rw [List.reverse_append, List.reverse_append, List.reverse_reverse, List.takeWhile_append,
    List.takeWhile_append, List.takeWhile_idem]

/-- A newline ends the line that is open before it; without one the line goes on. -/
theorem lastLine_append (a b : List UInt8) :
    lastLine (a ++ b) = if newline ∈ b then lastLine b else lastLine a ++ b := by
  unfold lastLine
  rw [List.reverse_append]
  by_cases ends : newline ∈ b
  · have stops : ¬(b.reverse.takeWhile (· != newline)).length = b.reverse.length := by
      intro whole
      have all := (List.takeWhile_prefix (· != newline)).eq_of_length whole
      have differs : (newline != newline) = true :=
        List.takeWhile_eq_self_iff.1 all newline (List.mem_reverse.2 ends)
      exact bne_iff_ne.1 differs rfl
    rw [if_pos ends, List.takeWhile_append, if_neg stops]
  · have free : ∀ c ∈ b.reverse, (c != newline) = true := by
      intro c member
      rw [bne_iff_ne]
      rintro rfl
      exact ends (List.mem_reverse.1 member)
    rw [if_neg ends, List.takeWhile_append_of_pos free, List.reverse_append, List.reverse_reverse]

/-- The last line of a last line is all of it. -/
theorem lastLine_idem (a : List UInt8) : lastLine (lastLine a) = lastLine a := by
  have line := lastLine_lastLine_append a []
  rwa [List.append_nil, List.append_nil] at line

/-- A screen goes on with its open line. -/
theorem Screen.tail_write {δ : Type} [Device δ] {s : Screen δ} (line : lastLine s.tail = s.tail)
    (bytes : List UInt8) : (s.write bytes).2.2.tail = lastLine (s.tail ++ bytes) := by
  rw [lastLine_append, line]
  rfl

/-! ## Dialogues -/

/-- A terminal behind buffers, and all values written, each with the number of times a line had been
asked for before. -/
structure Dialogue (δ : Type) where
  buffered : Buffered (Terminal δ)
  said : List (Nat × Int32) := []

namespace Dialogue

variable {δ : Type}

/-- How many times a line has been asked for. -/
def turn (s : Buffered (Terminal δ)) : Nat :=
  s.device.prompts.size

instance [Device δ] : Host (Dialogue δ) where
  read s := (s.buffered.read.1, { s with buffered := s.buffered.read.2 })
  write value s :=
    ((s.buffered.write value).1,
      { buffered := (s.buffered.write value).2, said := s.said ++ [(turn s.buffered, value)] })
  flush s := (s.buffered.flush.1, { s with buffered := s.buffered.flush.2 })

/-- A new terminal at which these lines are typed. -/
def new (device : δ) (lines : List (List UInt8)) : Dialogue δ where
  buffered := { device := { screen := { inner := device }, lines := lines } }

/-- To keep the values written makes no difference to what the primitives do. -/
theorem hom_buffered [Device δ] : Host.Hom (buffered : Dialogue δ → Buffered (Terminal δ)) :=
  ⟨fun _ => rfl, fun _ _ => rfl, fun _ => rfl⟩

/-- The bytes of the values written while a line had been asked for `n` times. -/
def spoken (said : List (Nat × Int32)) (n : Nat) : List UInt8 :=
  said.flatMap fun (turn, value) => if turn = n then String.utf8EncodeChar (Utf8.character value)
    else []

/-- A value on record is spoken in its own turn only. -/
theorem spoken_snoc (said : List (Nat × Int32)) (n m : Nat) (value : Int32) :
    spoken (said ++ [(n, value)]) m =
      spoken said m ++ if n = m then String.utf8EncodeChar (Utf8.character value) else [] := by
  unfold spoken
  rw [List.flatMap_append, List.flatMap_singleton]

/-- Nothing is spoken in a turn that has not come. -/
theorem spoken_of_lt {said : List (Nat × Int32)} {n : Nat} (past : ∀ e ∈ said, e.1 < n) :
    spoken said n = [] := by
  unfold spoken
  rw [List.flatMap_eq_nil_iff]
  intro e member
  exact if_neg (Nat.ne_of_lt (past e member))

end Dialogue

/-! ## The screen shows what was written -/

namespace Buffered

open Dialogue

variable {δ : Type} {lines : List (List UInt8)} {said : List (Nat × Int32)}
  {s t : Buffered (Terminal δ)}

/-- The prompts so far, and the open line on the screen, are what the values that were written ask
for. Each time the editor was asked it has returned the next line, but the last time if it has met
the end of the input. -/
structure Shows (lines : List (List UInt8)) (said : List (Nat × Int32))
    (s : Buffered (Terminal δ)) : Prop where
  returned : ∃ typed, lines = typed ++ s.device.lines ∧
    turn s = typed.length + s.device.closed.toNat
  ended : s.device.closed = true → s.device.lines = []
  past : ∀ e ∈ said, e.1 ≤ turn s
  prompts : ∀ n prompt, s.device.prompts[n]? = some prompt → prompt = lastLine (spoken said n)
  line : lastLine s.device.screen.tail = s.device.screen.tail
  level : s.outputFailure = none →
    lastLine (s.device.screen.tail ++ s.output.toList) = lastLine (spoken said (turn s))

/-- Where the editor is not asked only the open line counts. -/
theorem Shows.change (h : s.Shows lines said) (prompts : t.device.prompts = s.device.prompts)
    (left : t.device.lines = s.device.lines) (closed : t.device.closed = s.device.closed)
    (line : lastLine t.device.screen.tail = t.device.screen.tail)
    (level : t.outputFailure = none →
      lastLine (t.device.screen.tail ++ t.output.toList) = lastLine (spoken said (turn s))) :
    t.Shows lines said := by
  have turns : turn t = turn s := congrArg Array.size prompts
  refine ⟨?_, ?_, ?_, ?_, line, ?_⟩
  · rw [turns, left, closed]
    exact h.returned
  · rw [left, closed]
    exact h.ended
  · rw [turns]
    exact h.past
  · rw [prompts]
    exact h.prompts
  · rw [turns]
    exact level

/-- One more value is on record. It belongs to no prompt yet. -/
theorem Shows.note (h : s.Shows lines said) (value : Int32)
    (same : t.device = s.device)
    (level : t.outputFailure = none → lastLine (s.device.screen.tail ++ t.output.toList) =
      lastLine (spoken said (turn s) ++ String.utf8EncodeChar (Utf8.character value))) :
    t.Shows lines (said ++ [(turn s, value)]) := by
  have turns : turn t = turn s := by
    unfold turn
    rw [same]
  refine ⟨?_, ?_, ?_, ?_, ?_, ?_⟩
  · rw [turns, same]
    exact h.returned
  · rw [same]
    exact h.ended
  · intro e member
    rw [turns]
    rcases List.mem_append.1 member with before | now
    · exact h.past e before
    · rw [List.mem_singleton.1 now]
  · intro n prompt asked
    rw [same] at asked
    have earlier : n < turn s := by
      by_contra later
      rw [Array.getElem?_eq_none (Nat.le_of_not_lt later)] at asked
      cases asked
    rw [spoken_snoc, if_neg (by omega), List.append_nil]
    exact h.prompts n prompt asked
  · rw [same]
    exact h.line
  · rw [turns, same, spoken_snoc, if_pos rfl]
    exact level

/-- Putting the bytes of a value into the buffer. -/
theorem Shows.append (h : s.Shows lines said) (works : s.outputFailure = none) (value : Int32) :
    ({ s with
      output := s.output.appendList (Utf8.encode value.toInt) } : Buffered (Terminal δ)).Shows lines
      (said ++ [(turn s, value)]) := by
  refine h.note value rfl ?_
  intro _
  have bytes : (s.output.appendList (Utf8.encode value.toInt)).toList =
      s.output.toList ++ Utf8.encode value.toInt := Array.toList_appendList ..
  show lastLine (_ ++ (s.output.appendList (Utf8.encode value.toInt)).toList) = _
  rw [bytes, ← List.append_assoc, ← lastLine_lastLine_append, h.level works,
    lastLine_lastLine_append, Utf8.encode_toInt]

/-- The editor is asked with nothing in the buffer, so that the open line on the screen is that of
all that was written. -/
theorem Shows.ask (h : s.Shows lines said) (sent : s.output = #[]) (works : s.outputFailure = none)
    (prompts : t.device.prompts = s.device.prompts.push s.device.screen.tail)
    (tail : t.device.screen.tail = []) (silent : t.output = #[]) (opened : s.device.closed = false)
    (answer : s.device.lines = [] ∧ t.device.lines = [] ∧ t.device.closed = true ∨
      (∃ line, s.device.lines = line :: t.device.lines) ∧ t.device.closed = false) :
      t.Shows lines said := by
  have turns : turn t = turn s + 1 := by
    unfold turn
    rw [prompts, Array.size_push]
  refine ⟨?_, ?_, ?_, ?_, ?_, ?_⟩
  · obtain ⟨typed, all, count⟩ := h.returned
    rw [opened, Bool.toNat_false, Nat.add_zero] at count
    rcases answer with ⟨none, none', closed⟩ | ⟨⟨line, next⟩, opened'⟩
    · refine ⟨typed, ?_, ?_⟩
      · rw [all, none, none']
      · rw [turns, count, closed, Bool.toNat_true]
    · refine ⟨typed ++ [line], ?_, ?_⟩
      · rw [all, next, List.append_assoc, List.singleton_append]
      · rw [turns, count, opened', List.length_append, List.length_singleton, Bool.toNat_false]
  · intro closed
    rcases answer with ⟨-, none, -⟩ | ⟨-, opened'⟩
    · exact none
    · rw [closed] at opened'
      cases opened'
  · intro e member
    rw [turns]
    exact Nat.le_succ_of_le (h.past e member)
  · intro n prompt found
    rw [prompts, Array.getElem?_push] at found
    by_cases last : n = s.device.prompts.size
    · -- The new prompt is the tail, with nothing in the buffer the open line of all the output.
      rw [if_pos last] at found
      have level := h.level works
      rw [sent, List.append_nil, h.line] at level
      rw [← Option.some_inj.1 found, level, last, turn]
    · rw [if_neg last] at found
      exact h.prompts n prompt found
  · rw [tail, lastLine_nil]
  · intro _
    rw [tail, silent, turns, spoken_of_lt fun e member => Nat.lt_succ_of_le (h.past e member)]
    rfl

variable [Device δ]

/-- A flush moves bytes from the buffer to the screen. -/
theorem Shows.flush (h : s.Shows lines said) :
    s.flush.2.Shows lines said ∧ turn s.flush.2 = turn s := by
  -- The screen remembers all bytes offered, whether or not they are accepted.
  have offered : ∀ {count refusal device},
      Device.write s.output.toList s.device = (count, refusal, device) →
      ∃ screen : Screen δ, device = { s.device with screen := screen } ∧
        screen.tail = lastLine (s.device.screen.tail ++ s.output.toList) := by
    intro count refusal device sent
    have same : (Device.write s.output.toList s.device).2.2 = device :=
      congrArg (fun result => result.2.2) sent
    rw [← same]
    exact ⟨_, rfl, Screen.tail_write h.line s.output.toList⟩
  rcases s.flush_cases with ⟨reason, -, flushed⟩ | ⟨-, -, flushed⟩ |
      ⟨works, -, count, refusal, device, sent, ⟨-, -, flushed⟩ | ⟨-, reason, flushed⟩⟩
  · rw [flushed]
    exact ⟨h, rfl⟩
  · rw [flushed]
    exact ⟨h, rfl⟩
  · obtain ⟨screen, rfl, tail⟩ := offered sent
    rw [flushed]
    refine ⟨h.change rfl rfl rfl ?_ ?_, rfl⟩
    · show lastLine screen.tail = screen.tail
      rw [tail, lastLine_idem]
    · intro _
      show lastLine (screen.tail ++ []) = _
      rw [List.append_nil, tail, lastLine_idem]
      exact h.level works
  · obtain ⟨screen, rfl, tail⟩ := offered sent
    rw [flushed]
    refine ⟨h.change rfl rfl rfl ?_ nofun, rfl⟩
    show lastLine screen.tail = screen.tail
    rw [tail, lastLine_idem]

/-- A write keeps the screen showing what was said, the new value included. -/
theorem Shows.write (h : s.Shows lines said) (value : Int32) :
    (s.write value).2.Shows lines (said ++ [(turn s, value)]) := by
  obtain ⟨flushed, turns⟩ := h.flush
  rcases s.write_cases value with ⟨failed, same⟩ | ⟨works, same⟩ | ⟨failed, same⟩ | ⟨sent, same⟩
  · rw [same]
    exact h.note value rfl fun works => absurd works failed
  · rw [same]
    exact h.append works value
  · rw [same, ← turns]
    exact flushed.note value rfl fun works => absurd (flush_of_works works).2 failed
  · rw [same, ← turns]
    exact flushed.append (works_of_flush sent).2 value

/-- The screen shows what was said while a character is waited for. -/
theorem waits_shows : Waits fun t : Buffered (Terminal δ) =>
    t.Shows lines said ∧ t.output = #[] ∧ t.outputFailure = none := by
  refine ⟨?_, ?_⟩
  · rintro s room ⟨h, sent, works⟩
    refine ⟨?_, sent, works⟩
    have same : (Device.read room s.device).2.2 = (s.device.read room).2.2 := rfl
    rw [same]
    rcases s.device.read_cases room with ⟨-, read⟩ | ⟨-, -, read⟩ | ⟨-, opened, none, read⟩ |
      ⟨line, rest, -, opened, next, read⟩ <;> rw [read]
    · exact h.change rfl rfl rfl h.line h.level
    · exact h.change rfl rfl rfl h.line h.level
    · exact h.ask sent works rfl rfl sent opened (.inl ⟨none, none, rfl⟩)
    · exact h.ask sent works rfl rfl sent opened (.inr ⟨⟨line, next⟩, opened⟩)
  · rintro s input failure ⟨h, sent, works⟩
    exact ⟨h.change rfl rfl rfl h.line h.level, sent, works⟩

/-- A read keeps the screen showing what was said. -/
theorem Shows.read (h : s.Shows lines said) : s.read.2.Shows lines said := by
  have flushed := h.flush.1
  have succeeds : s.flush.1 = .ok () → _ := works_of_flush
  unfold Buffered.read
  rcases result : s.flush with ⟨reason | _, s'⟩
  · rw [result] at flushed
    exact flushed
  · rw [result] at flushed succeeds
    exact (waits_shows.readChar s' ⟨flushed, succeeds rfl⟩).1

end Buffered

/-! ## Prompts -/

namespace Dialogue

variable {δ : Type}

/-- A new dialogue shows nothing. -/
theorem shows_new (device : δ) (lines : List (List UInt8)) :
    (new device lines).buffered.Shows lines [] :=
  ⟨⟨[], rfl, rfl⟩, nofun, nofun, by simp [new], rfl, fun _ => rfl⟩

variable [Device δ]

/-- Each primitive keeps the screen showing what was said. -/
theorem keeps_shows (lines : List (List UInt8)) :
    Host.Keeps fun s : Dialogue δ => s.buffered.Shows lines s.said :=
  ⟨fun _ h => h.read, fun value _ h => h.write value, fun _ h => h.flush.1⟩

/-- What the editor is asked while programs run one after another at a terminal, from a state on. -/
structure Prompted (start : Dialogue δ) : Prop where
  /-- Each prompt is what comes after the last newline of all that was written after the one
  before. -/
  always : ∀ host, Host.Calls start host → ∀ n prompt,
    host.buffered.device.prompts[n]? = some prompt → AfterNewline (spoken host.said n) prompt
  /-- Each time but the last the editor has returned the next of the typed lines; the last time it
  may have met their end. -/
  returned : ∀ host, Host.Calls start host →
    ∃ typed, start.buffered.device.lines = typed ++ host.buffered.device.lines ∧
      turn host.buffered = typed.length + host.buffered.device.closed.toNat ∧
      (host.buffered.device.closed = true → host.buffered.device.lines = [])
  /-- Programs that are built and run one after another only call the primitives. -/
  programs : ∀ host, Machine.Visits start host → Host.Calls start host
  /-- So does any code on any machine. -/
  codes : ∀ code n m m' before host, Host.Calls start before →
    Machine.Reaches code n (m, before) (m', host) → Host.Calls start host
  /-- If the values written are not kept, steps and runs are the same. -/
  unrecorded : ∀ (m : Machine) code limit (host : Dialogue δ),
    m.step code host.buffered = (m.step code host).mapHost buffered ∧
      m.run code limit host.buffered = (m.run code limit host).mapHost buffered

/-- **Every prompt shows exactly the pending output.** Whatever lines are typed, and whatever
programs run one after another: each time the editor is asked for a line, its prompt is the part
after the last newline of all output that was written since the line before was returned, or since
the start, whether or not it had been flushed. -/
theorem prompted_new (device : δ) (lines : List (List UInt8)) : Prompted (new device lines) := by
  have held : ∀ {host}, Host.Calls (new device lines) host → host.buffered.Shows lines host.said :=
    fun calls => (keeps_shows lines).of_calls calls (shows_new device lines)
  refine ⟨?_, ?_, fun _ => Machine.calls_of_visits, ?_, ?_⟩
  · intro host calls n prompt asked
    rw [(held calls).prompts n prompt asked]
    exact afterNewline_lastLine _
  · intro host calls
    obtain ⟨typed, all, count⟩ := (held calls).returned
    exact ⟨typed, all, count, (held calls).ended⟩
  · intro code n m m' before host calls reached
    exact Machine.calls_of_reaches calls reached
  · intro m code limit host
    exact ⟨Machine.step_mapHost hom_buffered m host, Machine.run_mapHost hom_buffered m limit host⟩

/-- The line `b` is open when the first line is asked for; the second read needs no line. -/
example :
    (Host.read (Host.read (Host.write 98 (Host.write 10 (Host.write 97
      (new ({} : Pipe) [[104, 105]])).2).2).2).2).2.buffered.device.prompts = #[[98]] := by
  decide +kernel

end Dialogue

end TapeLang
