/-
# What was written can be read back

Values are written through one buffer; the bytes that its device accepted are delivered, in whatever
pieces, to another. There each value that is the number of a character is read again, and `U+FFFD`
for any other.

That is because the bytes accepted are the characters written one after another
(`Passage.written_eq`), and characters written one after another are decoded as these
(`Utf8.Decodes.of_characters`).
-/
import TapeLang.Proofs.Input

namespace TapeLang

/-! ## Values and characters -/

/-- The value that is read where a value was written. -/
def Utf8.restored (value : Int32) : Int32 :=
  if 0 ≤ value.toInt ∧ value.toInt ≤ 0x10FFFF ∧
    ¬ (0xD800 ≤ value.toInt ∧ value.toInt ≤ 0xDFFF) then value
  else 0xFFFD

/-- The character that is written for a value is the restored value. -/
theorem Utf8.ofNat_character (value : Int32) :
    Int32.ofNat (character value).toNat = restored value := by
  have number : 0 ≤ value.toInt → Int32.ofNat value.toInt.toNat = value := by
    intro positive
    apply Int32.toInt_inj.1
    have upper := value.toInt_lt
    rw [Int32.toInt_ofNat_of_lt (by omega)]
    omega
  unfold restored character
  by_cases scalar : 0 ≤ value.toInt ∧ value.toInt.toNat.isValidChar
  · have bounds := scalar.2
    unfold Nat.isValidChar at bounds
    rw [if_pos scalar, if_pos (by omega), Char.toNat_ofNat, if_pos scalar.2, number scalar.1]
  · have bounds : ¬ (0 ≤ value.toInt ∧ value.toInt ≤ 0x10FFFF ∧
        ¬ (0xD800 ≤ value.toInt ∧ value.toInt ≤ 0xDFFF)) := by
      intro inside
      apply scalar
      unfold Nat.isValidChar
      omega
    rw [if_neg scalar, if_neg bounds]
    decide

namespace Passage

/-- The values written. -/
def values (log : List Passage) : List Int32 :=
  log.filterMap fun
    | wrote value => some value
    | _ => none

@[simp] theorem values_append (a b : List Passage) : values (a ++ b) = values a ++ values b :=
  List.filterMap_append

/-- The bytes of the values written are those of their characters. -/
theorem written_eq (log : List Passage) :
    written log = ((values log).map Utf8.character).flatMap String.utf8EncodeChar := by
  induction log with
  | nil => rfl
  | cons e log ih =>
    rw [← List.singleton_append, written_append, values_append, List.map_append,
      List.flatMap_append, ih]
    cases e with
    | wrote value => simp [values]
    | sent _ _ _ | asked _ => rfl

/-- What is read at a place where values were written. -/
def answerAt (values : List Int32) (n : Nat) : Except String Int32 :=
  values[n]?.elim (.ok (-1)) fun value => .ok (Utf8.restored value)

/-- The characters of values are answered as the values themselves. -/
theorem answerAt_eq (values : List Int32) (n : Nat) :
    Host.Recorded.answerAt (values.map Utf8.character) .endOfInput n = answerAt values n := by
  unfold Host.Recorded.answerAt answerAt
  rw [List.getElem?_map]
  cases values[n]? with
  | none => rfl
  | some value =>
    show Except.ok (Int32.ofNat (Utf8.character value).toNat) = _
    rw [Utf8.ofNat_character]
    rfl

end Passage

/-! ## Many writes and many reads -/

namespace Host

variable {σ : Type} [Host σ]

/-- The state after values have been written one after another. -/
def writes (values : List Int32) (s : σ) : σ :=
  values.foldl (fun s value => (Host.write value s).2) s

/-- The state after so many reads. -/
def reads : Nat → σ → σ
  | 0, s => s
  | n + 1, s => (Host.read (reads n s)).2

/-- Writing values one after another is calling primitives. -/
theorem calls_writes {start s : σ} (calls : Host.Calls start s) (values : List Int32) :
    Host.Calls start (writes values s) := by
  induction values generalizing s with
  | nil => exact calls
  | cons value values ih => exact ih (calls.write value)

/-- Reading one value after another is calling a primitive. -/
theorem calls_reads (start : σ) (n : Nat) : Host.Calls start (reads n start) := by
  induction n with
  | zero => exact .start
  | succ n ih => exact ih.read

end Host

namespace Buffered

variable {δ : Type} [Device δ]

/-- Reads alone have nothing to flush, and do not fail by it. -/
theorem reads_works {s : Buffered δ} (empty : s.output = #[]) (works : s.outputFailure = none)
    (n : Nat) : (Host.reads n s).output = #[] ∧ (Host.reads n s).outputFailure = none := by
  have waits : Waits fun t : Buffered δ => t.output = #[] ∧ t.outputFailure = none :=
    ⟨fun _ _ h => h, fun _ _ _ h => h⟩
  induction n with
  | zero => exact ⟨empty, works⟩
  | succ n ih =>
    have flushed : (Host.reads n s).flush = (.ok (), Host.reads n s) := by
      simp [flush, ih.1, ih.2]
    show (Host.reads n s).read.2.output = #[] ∧ (Host.reads n s).read.2.outputFailure = none
    unfold read
    rw [flushed]
    exact waits.readChar _ ih

end Buffered

namespace Host.Recorded

variable {σ : Type} [Host σ]

/-- Reads on record are reads of the host. -/
theorem host_reads (s : Host.Recorded σ) (n : Nat) : (reads n s).host = reads n s.host := by
  induction n with
  | zero => rfl
  | succ n ih =>
    show (Host.read (reads n s).host).2 = (Host.read (reads n s.host)).2
    rw [ih]

/-- Each read leaves one answer on record. -/
theorem length_reads (s : Host.Recorded σ) (n : Nat) :
    (reads n s).answers.length = s.answers.length + n := by
  induction n with
  | zero => rfl
  | succ n ih =>
    show (Host.read (reads n s)).2.answers.length = _
    rw [length_read, ih, Nat.add_assoc]

end Host.Recorded

namespace Watched

open Passage

variable {δ : Type} [Device δ]

/-- Sending writes nothing. -/
theorem values_flush (s : Buffered (Tapped δ)) : values s.flush.2.log = values s.log := by
  show values s.flush.2.device.log = values s.device.log
  rcases s.flush_leaves.2.2 with unchanged | written
  · rw [unchanged]
  · rw [written]
    show values (s.device.log ++ [_]) = _
    rw [values_append]
    exact List.append_nil _

/-- Writing a value writes this value, whether or not it can be sent. -/
theorem values_write (value : Int32) (s : Watched δ) :
    values (Host.write value s).2.log = values s.log ++ [value] := by
  have noted : values (s.note value).log = values s.log ++ [value] := values_append _ _
  show values ((s.note value).write value).2.log = _
  rcases (s.note value).write_cases value with ⟨-, same⟩ | ⟨-, same⟩ | ⟨-, same⟩ | ⟨-, same⟩
  · rw [same, noted]
  · rw [same]
    exact noted
  · rw [same, values_flush, noted]
  · rw [same]
    exact (values_flush _).trans noted

/-- Values that are written come behind those of the log. -/
theorem values_writes (list : List Int32) (s : Watched δ) :
    values (Host.writes list s).log = values s.log ++ list := by
  induction list generalizing s with
  | nil => exact (List.append_nil _).symm
  | cons value list ih =>
    show values (Host.writes list (Host.write value s).2).log = _
    rw [ih, values_write, List.append_assoc]
    rfl

/-- All bytes written have been accepted after a flush, unless the device has refused some. -/
theorem accepted_flush {device : δ} {writer : Watched δ} (calls : Host.Calls (new device) writer)
    (all : Unrefused (Host.flush writer).2.log) :
    accepted (Host.flush writer).2.log = written writer.log ∧
      (Host.flush (Host.flush writer).2).2 = (Host.flush writer).2 := by
  have tidy : writer.buffered.Tidy [] := keeps_tidy.of_calls calls (tidy_new device)
  obtain ⟨flushed, sent, works⟩ := tidy.flush
  have working : writer.buffered.flush.2.outputFailure = none := by
    by_contra failed
    exact flushed.blame failed all
  obtain ⟨empty, -⟩ := sent (works working)
  have again : writer.buffered.flush.2.flush = (.ok (), writer.buffered.flush.2) := by
    rw [Buffered.flush, working, empty]
    rfl
  refine ⟨?_, ?_⟩
  · have level := flushed.accepted_eq empty working
    rw [written_eq, values_flush, ← written_eq] at level
    exact level
  · show (⟨writer.buffered.flush.2.flush.2⟩ : Watched δ) = ⟨writer.buffered.flush.2⟩
    rw [again]

/-- What was written to a device can be read back. -/
structure Echoes (device : δ) : Prop where
  /-- Any list of values may be written. -/
  listed : ∀ list, Host.Calls (new device) (Host.writes list (new device)) ∧
    values (Host.writes list (new device)).log = list
  /-- Programs that are built and run one after another write in this way, too. -/
  programs : ∀ writer, Machine.Visits (new device) writer → Host.Calls (new device) writer
  /-- A run that ends has sent what was written. -/
  finished : ∀ (m m' : Machine) code limit report before writer, Host.Calls (new device) before →
    m.run code limit before = .done report m' writer → Unrefused writer.log →
    Host.Calls (new device) writer ∧ (Host.flush writer).2 = writer
  /-- If the device has refused nothing, and the bytes it accepted are delivered by another, then
  the values written are read there, by reads alone, and by programs that write as well as long as
  no flush fails. -/
  echo : ∀ writer, Host.Calls (new device) writer → Unrefused (Host.flush writer).2.log →
    ∀ {ε : Type} [Device ε] (source : ε),
      Device.Delivers source (accepted (Host.flush writer).2.log) .endOfInput →
      (∀ n, (Host.reads n ({ host := { device := source } } : Host.Recorded (Buffered ε))).answers =
        (List.range n).map (answerAt (values writer.log))) ∧
      ∀ reader, Host.Calls ({ host := { device := source } } : Host.Recorded (Buffered ε)) reader ∨
          Machine.Visits ({ host := { device := source } } : Host.Recorded (Buffered ε)) reader →
        reader.host.outputFailure = none →
        reader.answers = (List.range reader.answers.length).map (answerAt (values writer.log))
  /-- Neither the log nor the record of what is read changes what the primitives do. -/
  unlogged : Host.Hom (plain : Watched δ → Buffered δ)
  unrecorded : ∀ {ε : Type} [Device ε],
    Host.Hom (Host.Recorded.host : Host.Recorded (Buffered ε) → Buffered ε)

/-- **Writing and then reading is the identity on characters.** Values written to a device that
refuses nothing come back when its bytes are delivered to another, in the same number and order:
each number of a character as itself, and every other value as `U+FFFD`; after them comes the end of
the input. -/
theorem echoes_new (device : δ) : Echoes device := by
  refine ⟨?_, fun _ => Machine.calls_of_visits, ?_, ?_, hom_plain, Host.Recorded.hom_host⟩
  · intro list
    refine ⟨Host.calls_writes .start list, ?_⟩
    exact values_writes list (new device)
  · intro m m' code limit report before writer calls ended all
    obtain ⟨last, held, rfl, -⟩ := Machine.keeps_of_run (Host.Calls.keeps (new device)) calls ended
    exact ⟨held.flush, (accepted_flush held all).2⟩
  · intro writer calls all ε _ source delivers
    -- What is delivered are the characters of the values, one after another, and these are decoded
    -- as themselves.
    rw [(accepted_flush calls all).1, written_eq] at delivers
    have hears := Host.Recorded.hears_of_decodes delivers (Utf8.Decodes.of_characters _)
    have answers : Host.Recorded.answerAt ((values writer.log).map Utf8.character) .endOfInput =
        answerAt (values writer.log) := funext (answerAt_eq (values writer.log))
    rw [← answers]
    constructor
    · intro n
      have heard := hears.always _ (Host.calls_reads _ n) (by
        rw [Host.Recorded.host_reads]
        exact (Buffered.reads_works rfl rfl n).2)
      rwa [Host.Recorded.length_reads, List.length_nil, Nat.zero_add] at heard
    · rintro reader (calls' | visits) works
      · exact hears.always reader calls' works
      · exact hears.always reader (Machine.calls_of_visits visits) works

/-- Two characters, a surrogate and a negative value, delivered three bytes at a time. -/
theorem echoes_new_of_values :
    let writer := Host.writes [0x41, 0xD800, -1, 0x1F600] (new ({} : Pipe))
    let source : Pipe := { input := accepted (Host.flush writer).2.log, pace := .atMost 3 }
    (Host.reads 5 ({ host := { device := source } } : Host.Recorded (Buffered Pipe))).answers =
      [.ok 0x41, .ok 0xFFFD, .ok 0xFFFD, .ok 0x1F600, .ok (-1)] := by
  intro writer source
  have echoes := echoes_new ({} : Pipe)
  obtain ⟨calls, listed⟩ := echoes.listed [0x41, 0xD800, -1, 0x1F600]
  have sent : (Host.flush writer).2.log = [.wrote 0x41, .wrote 0xD800, .wrote (-1), .wrote 0x1F600,
      .sent [0x41, 0xEF, 0xBF, 0xBD, 0xEF, 0xBF, 0xBD, 0xF0, 0x9F, 0x98, 0x80] 11 none] := by
    decide +kernel
  have all : Unrefused (Host.flush writer).2.log := by
    intro offered count refusal member
    rw [sent] at member
    simp only [List.mem_cons, reduceCtorEq, false_or, List.not_mem_nil, or_false,
      Passage.sent.injEq] at member
    obtain ⟨rfl, rfl, rfl⟩ := member
    exact ⟨by decide, rfl⟩
  have read := (echoes.echo writer calls all source (source.delivers (by decide) (by decide))).1 5
  rw [listed] at read
  rw [read]
  decide +kernel

end Watched

end TapeLang
