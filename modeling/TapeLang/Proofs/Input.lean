/-
# Input does not depend on how it arrives

A device delivers a byte string in pieces of any size, and then fails always in the same way
(`Device.Delivers`). The buffer in front of it waits for whole characters, so what is read are the
characters of the string, however the pieces are cut, across the boundaries of buffers, programs and
runs.

The invariant is `Buffered.Ahead`: the bytes that have arrived, followed by those that are due from
the device, are the bytes that are still to be read. Reading takes the first character of them,
which can be seen from the bytes that have arrived alone (`Utf8.front_append`); writing and flushing
leave them.

The answers to reads are kept by a host of its own, `Host.Recorded`, in front of which every run is
the same as without a record. `Host.Recorded.hears_new` has the result for every device that
delivers a text.
-/
import TapeLang.Proofs.Decoding

namespace TapeLang

/-! ## Devices that deliver a text -/

/-- What a device delivers when it is asked, given the bytes that are `due` from it: the next of
them, as many as it likes but one at least, or the failure `ending` after the last of them. Writing
to the device does not change what is due. -/
structure Device.Delivery {δ : Type} [Device δ] (ending : Failure) (due : List UInt8 → δ → Prop) :
    Prop where
  read : ∀ text d room, due text d → 0 < room →
    ∃ left, text = (Device.read room d).1 ++ left ∧ due left (Device.read room d).2.2 ∧
      ((Device.read room d).2.1 = none → (Device.read room d).1 ≠ []) ∧
      ∀ failure, (Device.read room d).2.1 = some failure → failure = ending ∧ left = []
  write : ∀ text d bytes, due text d → due text (Device.write bytes d).2.2

/-- A device that delivers a byte string, cut into pieces in whatever way, and after it fails always
in the same way. -/
def Device.Delivers {δ : Type} [Device δ] (d : δ) (text : List UInt8) (ending : Failure) : Prop :=
  ∃ due, Device.Delivery ending due ∧ due text d

/-- A pipe that is not stalled delivers its input. -/
theorem Pipe.delivers (p : Pipe) (moves : p.pace ≠ .stalled) (some_byte : p.pace ≠ .atMost 0) :
    Device.Delivers p p.input p.ending := by
  refine ⟨fun text d => d.input = text ∧ d.ending = p.ending ∧ d.pace = p.pace,
    ⟨?_, ?_⟩, rfl, rfl, rfl⟩
  · rintro text d room ⟨rfl, ending, pace⟩ space
    have size : ∃ count, 0 < count ∧ Device.read room d =
        if d.input.isEmpty then ([], some d.ending, d)
        else (d.input.take count, none, { d with input := d.input.drop count }) := by
      cases paced : p.pace with
      | whole => exact ⟨room, space, by simp [Device.read, read, pace, paced]⟩
      | atMost bytes =>
        have positive : 0 < bytes := by
          refine Nat.pos_of_ne_zero ?_
          rintro rfl
          exact some_byte paced
        exact ⟨min room bytes, by omega, by simp [Device.read, read, pace, paced]⟩
      | stalled => exact absurd paced moves
    obtain ⟨count, positive, delivered⟩ := size
    rw [delivered]
    by_cases empty : d.input = []
    · simp [empty, ending, pace]
    · rw [if_neg (by simpa using empty)]
      refine ⟨d.input.drop count, (List.take_append_drop _ _).symm, ⟨rfl, ending, pace⟩, ?_, nofun⟩
      intro _ none
      rcases List.take_eq_nil_iff.1 none with zero | nil
      · omega
      · exact empty nil
  · rintro text d bytes ⟨rfl, ending, pace⟩
    simp only [Device.write, write]
    split
    · exact ⟨rfl, ending, pace⟩
    · split <;> exact ⟨rfl, ending, pace⟩

/-! ## What is still to be read -/

/-- The answer to a read when a device has nothing more to deliver. -/
def Failure.answer : Failure → Except String Int32
  | endOfInput => .ok (-1)
  | other reason => .error reason

namespace Buffered

variable {δ : Type} [Device δ] {ending : Failure} {due : List UInt8 → δ → Prop} {text : List UInt8}
  {s : Buffered δ}

/-- The bytes `text` are still to be read as characters: those that have arrived, and then those
that are due from the device. After a failure none are due. -/
def Ahead (ending : Failure) (due : List UInt8 → δ → Prop) (text : List UInt8) (s : Buffered δ) :
    Prop :=
  ∃ left, s.input ++ left = text ∧ due left s.device ∧
    ∀ failure, s.inputFailure = some failure → failure = ending ∧ left = []

/-- Asking for bytes brings some, or a failure, and what is to be read stays the same. -/
theorem Ahead.fill (delivery : Device.Delivery ending due) (h : s.Ahead ending due text)
    (room : s.input.length < capacity) (attempts : Nat) :
    (Buffered.fill (attempts + 1) s).Ahead ending due text ∧
      ((Buffered.fill (attempts + 1) s).inputFailure.isSome = true ∨
        s.input.length < (Buffered.fill (attempts + 1) s).input.length) := by
  obtain ⟨left, rfl, held, -⟩ := h
  obtain ⟨later, same, held', some_byte, failed⟩ :=
    delivery.read left s.device (capacity - s.input.length) held (by omega)
  rcases delivered : Device.read (capacity - s.input.length) s.device with ⟨bytes, failure, device⟩
  rw [delivered] at same held' some_byte failed
  have stop : ¬ (bytes.isEmpty ∧ failure.isNone) := by
    rintro ⟨empty, none⟩
    exact some_byte (Option.isNone_iff_eq_none.1 none) (List.isEmpty_iff.1 empty)
  simp only [Buffered.fill, delivered, if_neg stop]
  refine ⟨⟨later, ?_, held', failed⟩, ?_⟩
  · rw [same, List.append_assoc]
  · cases failure with
    | some reason => exact .inl rfl
    | none =>
      right
      have longer : 0 < bytes.length := List.length_pos_iff.2 (some_byte rfl)
      simp only [List.length_append]
      omega

/-- Waiting for a character ends with one in front, or with a byte that begins none, or with a
failure. -/
theorem Ahead.await (delivery : Device.Delivery ending due) (h : s.Ahead ending due text)
    {rounds : Nat} (enough : s.inputFailure.isSome = true ∨ 4 ≤ s.input.length + rounds) :
    (Buffered.await rounds s).Ahead ending due text ∧
      (Utf8.front (Buffered.await rounds s).input ≠ .incomplete ∨
        (Buffered.await rounds s).inputFailure.isSome = true) := by
  induction rounds generalizing s with
  | zero =>
    refine ⟨h, ?_⟩
    rcases enough with failed | long
    · exact .inr failed
    · left
      -- Bytes that are not a character yet are three at most, and each round has brought one.
      intro incomplete
      have short := Utf8.length_of_incomplete incomplete
      simp only [Buffered.await] at short
      omega
  | succ rounds ih =>
    simp only [Buffered.await]
    by_cases waiting : Utf8.front s.input = .incomplete ∧ s.inputFailure.isNone
    · rw [if_pos waiting]
      have short := Utf8.length_of_incomplete waiting.1
      have room : s.input.length < capacity := Nat.lt_of_le_of_lt short (by decide)
      obtain ⟨ahead, more⟩ := h.fill delivery room 99
      refine ih ahead ?_
      rcases more with failed | longer
      · exact .inl failed
      · right
        rcases enough with failed | long
        · rw [Option.isNone_iff_eq_none.1 waiting.2] at failed
          cases failed
        · show 4 ≤ (Buffered.fill (99 + 1) s).input.length + rounds
          omega
    · rw [if_neg waiting]
      refine ⟨h, ?_⟩
      by_cases incomplete : Utf8.front s.input = .incomplete
      · right
        cases failure : s.inputFailure with
        | none => exact absurd ⟨incomplete, by rw [failure]; rfl⟩ waiting
        | some reason => rfl
      · exact .inl incomplete

/-- Reading a character takes the first of those that are ahead. If there is none, the answer is
that of the failure. -/
theorem Ahead.readChar (delivery : Device.Delivery ending due) (h : s.Ahead ending due text)
    {chars : List Char} (read : Utf8.Decodes text chars) :
    s.readChar.1 = (chars.head?.elim ending.answer fun c => .ok (Int32.ofNat c.toNat)) ∧
      ∃ later, s.readChar.2.Ahead ending due later ∧ Utf8.Decodes later chars.tail := by
  have waited : (Buffered.await longest s).Ahead ending due text ∧ _ :=
    h.await delivery (.inr (Nat.le_add_left 4 s.input.length))
  obtain ⟨⟨left, rfl, held, failed⟩, settled⟩ := waited
  simp only [Buffered.readChar]
  generalize Buffered.await longest s = s' at *
  -- Where nothing has arrived nothing is due either, since the wait for a character has ended.
  have none_due : s'.input = [] → s'.inputFailure = some ending ∧ left = [] := by
    intro empty
    rw [empty] at settled
    rcases settled with some_front | failure
    · exact absurd rfl some_front
    · obtain ⟨reason, found⟩ := Option.isSome_iff_exists.1 failure
      obtain ⟨rfl, none⟩ := failed reason found
      exact ⟨found, none⟩
  cases chars with
  | nil =>
    have empty : s'.input = [] := by
      generalize bytes : s'.input ++ left = all at read
      cases read
      exact (List.append_eq_nil_iff.1 bytes).1
    obtain ⟨failure, rfl⟩ := none_due empty
    simp only [empty, List.isEmpty_nil, if_true, failure]
    have reported :
        ({ s' with inputFailure := none } : Buffered δ).Ahead ending due (s'.input ++ []) := by
      refine ⟨[], rfl, held, ?_⟩
      intro reason none
      cases none
    rw [empty] at reported read
    cases ending with
    | endOfInput | other reason => exact ⟨rfl, [], reported, read⟩
  | cons c chars =>
    obtain ⟨some_byte, first, rest⟩ := read.head
    have arrived : s'.input ≠ [] := by
      intro empty
      rw [empty, (none_due empty).2] at some_byte
      exact some_byte rfl
    have same : Utf8.takeFront s'.input = Utf8.takeFront (s'.input ++ left) := by
      rcases settled with complete | failure
      · rw [Utf8.takeFront, Utf8.takeFront, Utf8.front_append complete]
      · obtain ⟨reason, found⟩ := Option.isSome_iff_exists.1 failure
        rw [(failed reason found).2, List.append_nil]
    rw [← same] at first rest
    have inside := Utf8.takeFront_le arrived
    rw [List.drop_append_of_le_length inside] at rest
    rw [if_neg (by simpa using arrived)]
    refine ⟨?_, _, ⟨left, rfl, held, failed⟩, rest⟩
    show Except.ok (Int32.ofNat (Utf8.takeFront s'.input).1) = _
    rw [first]
    rfl

/-- Writing to the device leaves what is ahead. -/
theorem Ahead.flush (delivery : Device.Delivery ending due) (h : s.Ahead ending due text) :
    s.flush.2.Ahead ending due text := by
  obtain ⟨left, same, held, failed⟩ := h
  obtain ⟨input, failure, device⟩ := s.flush_leaves
  refine ⟨left, ?_, ?_, ?_⟩
  · rw [input]
    exact same
  · rcases device with unchanged | written
    · rw [unchanged]
      exact held
    · rw [written]
      exact delivery.write left s.device s.output.toList held
  · rw [failure]
    exact failed

theorem Ahead.write (delivery : Device.Delivery ending due) (h : s.Ahead ending due text)
    (value : Int32) : (s.write value).2.Ahead ending due text := by
  rcases s.write_cases value with ⟨-, same⟩ | ⟨-, same⟩ | ⟨-, same⟩ | ⟨-, same⟩
  · rw [same]
    exact h
  · rw [same]
    exact h
  · rw [same]
    exact h.flush delivery
  · rw [same]
    exact h.flush delivery

end Buffered

/-! ## Hosts with a record of what was read -/

/-- A host, and the answers to all reads so far. -/
structure Host.Recorded (σ : Type) where
  host : σ
  answers : List (Except String Int32) := []

namespace Host.Recorded

instance {σ : Type} [Host σ] : Host (Host.Recorded σ) where
  read s :=
    ((Host.read s.host).1,
      { host := (Host.read s.host).2, answers := s.answers ++ [(Host.read s.host).1] })
  write value s := ((Host.write value s.host).1, { s with host := (Host.write value s.host).2 })
  flush s := ((Host.flush s.host).1, { s with host := (Host.flush s.host).2 })

/-- The record makes no difference to what the primitives do. -/
theorem hom_host {σ : Type} [Host σ] : Host.Hom (host : Host.Recorded σ → σ) :=
  ⟨fun _ => rfl, fun _ _ => rfl, fun _ => rfl⟩

@[simp]
theorem length_read {σ : Type} [Host σ] (s : Host.Recorded σ) :
    (Host.read s).2.answers.length = s.answers.length + 1 :=
  List.length_append

/-- The answer to the read with a number, from zero on, of characters after which a device fails. -/
def answerAt (chars : List Char) (ending : Failure) (n : Nat) : Except String Int32 :=
  chars[n]?.elim ending.answer fun c => .ok (Int32.ofNat c.toNat)

variable {δ : Type} [Device δ] {ending : Failure} {due : List UInt8 → δ → Prop} {chars : List Char}
  {s : Host.Recorded (Buffered δ)}

/-- A record of characters that come from a buffered device. What was read are the first of them,
and the others are ahead. -/
structure Follows (ending : Failure) (due : List UInt8 → δ → Prop) (chars : List Char)
    (s : Host.Recorded (Buffered δ)) : Prop where
  record : s.answers = (List.range s.answers.length).map (answerAt chars ending)
  ahead : ∃ text, s.host.Ahead ending due text ∧ Utf8.Decodes text (chars.drop s.answers.length)

/-- The primitives follow the characters as long as sending works. -/
theorem keeps_follows (delivery : Device.Delivery ending due) :
    Host.Keeps fun s : Host.Recorded (Buffered δ) => s.host.outputFailure = none →
      s.Follows ending due chars := by
  refine ⟨?_, ?_, ?_⟩
  · intro s h works
    -- Sending works after the read, so its flush has succeeded, and what is left of it is to read a
    -- character.
    obtain ⟨flushed, same⟩ := Buffered.read_of_works works
    obtain ⟨record, text, ahead, decodes⟩ := h (Buffered.flush_of_works flushed).1
    obtain ⟨answer, later, ahead', decodes'⟩ := (ahead.flush delivery).readChar delivery decodes
    rw [← same] at answer ahead'
    rw [List.tail_drop] at decodes'
    refine ⟨?_, later, ahead', ?_⟩
    · rw [length_read, List.range_succ, List.map_append, ← record]
      show s.answers ++ [s.host.read.1] = _
      rw [answer, List.head?_drop]
      rfl
    · rwa [length_read]
  · intro value s h works
    obtain ⟨record, text, ahead, decodes⟩ := h (Buffered.works_of_write works)
    exact ⟨record, text, ahead.write delivery value, decodes⟩
  · intro s h works
    obtain ⟨record, text, ahead, decodes⟩ := h (Buffered.flush_of_works works).1
    exact ⟨record, text, ahead.flush delivery, decodes⟩

/-- What programs hear that run one after another in front of a host, from a state on. -/
structure Hears (start : Host.Recorded (Buffered δ)) (chars : List Char) (ending : Failure) :
    Prop where
  /-- Whatever is asked of the host, and as long as no flush has failed, the answers to reads are
  the characters one after another, and then always the answer that belongs to the failure. -/
  always : ∀ host, Host.Calls start host → host.host.outputFailure = none →
    host.answers = (List.range host.answers.length).map (answerAt chars ending)
  /-- Programs that are built and run one after another only ask the host. -/
  programs : ∀ host, Machine.Visits start host → Host.Calls start host
  /-- So does any code on any machine. -/
  codes : ∀ code n m m' before host, Host.Calls start before →
    Machine.Reaches code n (m, before) (m', host) → Host.Calls start host
  /-- Without a record, steps and runs are the same. -/
  unrecorded : ∀ (m : Machine) code limit (s : Host.Recorded (Buffered δ)),
    m.step code s.host = (m.step code s).mapHost host ∧
      m.run code limit s.host = (m.run code limit s).mapHost host

/-- A host hears the characters that the text of its device decodes to. -/
theorem hears_of_decodes {device : δ} {text : List UInt8}
    (delivers : Device.Delivers device text ending) (decodes : Utf8.Decodes text chars) :
    Hears { host := { device := device } } chars ending := by
  obtain ⟨due, delivery, held⟩ := delivers
  refine ⟨?_, fun _ => Machine.calls_of_visits, ?_, ?_⟩
  · intro host calls works
    have follows : Follows ending due chars { host := { device := device } } :=
      ⟨rfl, text, ⟨text, rfl, held, nofun⟩, decodes⟩
    exact ((keeps_follows delivery).of_calls calls (fun _ => follows) works).record
  · intro code n m m' before host calls reached
    exact Machine.calls_of_reaches calls reached
  · intro m code limit s
    exact ⟨Machine.step_mapHost hom_host m s, Machine.run_mapHost hom_host m limit s⟩

/-- **Input does not depend on how it is cut into pieces.** A device delivers a byte string in
whatever pieces, and then fails always in the same way. Then the values that programs read, one
after another, are the characters of the whole string, read from left to right with `U+FFFD` for
each byte at which no character is encoded, and after them always `-1` or the failure. -/
theorem hears_new {device : δ} {text : List UInt8} (delivers : Device.Delivers device text ending) :
    ∃ chars, (∀ other, Utf8.Decodes text other ↔ other = chars) ∧
      Hears { host := { device := device } } chars ending := by
  obtain ⟨chars, decodes⟩ := Utf8.Decodes.total text
  refine ⟨chars, ?_, hears_of_decodes delivers decodes⟩
  intro other
  constructor
  · intro h
    exact h.unique decodes
  · rintro rfl
    exact decodes

/-- A character that arrives byte by byte, and the front of one at the end. -/
theorem hears_new_of_bytes :
    let pipe : Pipe := { input := [0xE2, 0x82, 0xAC, 0xC3], pace := .atMost 1 }
    let start : Host.Recorded (Buffered Pipe) := { host := { device := pipe } }
    Device.Delivers pipe [0xE2, 0x82, 0xAC, 0xC3] .endOfInput ∧
      (Host.read (Host.read (Host.read start).2).2).2.answers =
        [.ok 0x20AC, .ok 0xFFFD, .ok (-1)] := by
  intro pipe start
  have delivers : Device.Delivers pipe [0xE2, 0x82, 0xAC, 0xC3] .endOfInput :=
    pipe.delivers (by decide) (by decide)
  have truncated (c : Char) : ¬ String.utf8EncodeChar c <+: [0xC3] := by
    rintro ⟨rest, same⟩
    have shown := Utf8.front_character c rest
    rw [same] at shown
    cases shown
  have decodes : Utf8.Decodes [0xE2, 0x82, 0xAC, 0xC3] [Char.ofNat 0x20AC, Char.ofNat 0xFFFD] :=
    .character (Char.ofNat 0x20AC) (.other truncated .nil)
  obtain ⟨chars, read, hears⟩ := hears_new delivers
  obtain rfl := (read _).1 decodes
  have heard := hears.always _ (.read (.read (.read .start))) (by decide +kernel)
  simp only [length_read] at heard
  exact ⟨delivers, heard⟩

end Host.Recorded

end TapeLang
