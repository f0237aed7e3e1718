/-
# Output reaches the device whole and in order

Programs that run one after another on one buffered device write values; the device accepts bytes. A
log of both, in the order of time, shows how they are related: at every moment the bytes accepted
are a prefix of the encoding of the values written (`Passage.Exact`), and all of it when bytes are
asked for and when a run ends without a fault.

The buffer carries the proof: as long as sending has not failed, the bytes accepted, the bytes in
the buffer and the character that is being written, one after another, are the encoding of all
values written; and the buffer holds whole characters (`Buffered.Tidy`). After a failure nothing is
offered to the device any more.

The log is kept by a host of its own, `Watched`, in front of which every run is the same as without
a log. It is also the same with a screen before the device, which passes on what is written.
`Watched.exact_new` has all this for every device, that is for every way to accept, to refuse or to
drop bytes.
-/
import TapeLang.Proofs.Hosting
import TapeLang.Stream.Screen

namespace TapeLang

/-! ## Characters -/

namespace Utf8

/-- The character that is written for a value: the one with this number, if there is one, else
`U+FFFD`. -/
def character (value : Int32) : Char :=
  if 0 ≤ value.toInt ∧ value.toInt.toNat.isValidChar then Char.ofNat value.toInt.toNat
  else Char.ofNat 0xFFFD

theorem encodeScalar_toNat (c : Char) : encodeScalar c.toNat = String.utf8EncodeChar c := by
  have valid : c.toNat < 0x110000 := by
    rcases c.valid with low | high
    · exact Nat.lt_trans low (by decide)
    · exact high.2
  simp only [encodeScalar, String.utf8EncodeChar, Nat.toUInt8_eq,
    show c.val.toNat = c.toNat from rfl]
  by_cases one : c.toNat < 0x80
  · rw [if_pos one, if_pos (by omega)]
  by_cases two : c.toNat < 0x800
  · have lead : 0xC0 + c.toNat / 0x40 = c.toNat / 64 % 32 + 192 := by omega
    rw [if_neg one, if_pos two, if_neg (by omega), if_pos (by omega), lead, Nat.add_comm 0x80]
  by_cases three : c.toNat < 0x10000
  · have lead : 0xE0 + c.toNat / 0x1000 = c.toNat / 4096 % 16 + 224 := by omega
    rw [if_neg one, if_neg two, if_pos three, if_neg (by omega), if_neg (by omega),
      if_pos (by omega), lead, Nat.add_comm 0x80, Nat.add_comm 0x80]
  · have lead : 0xF0 + c.toNat / 0x40000 = c.toNat / 262144 % 8 + 240 := by omega
    rw [if_neg one, if_neg two, if_neg three, if_neg (by omega), if_neg (by omega),
      if_neg (by omega), lead, Nat.add_comm 0x80, Nat.add_comm 0x80, Nat.add_comm 0x80]

theorem isScalar_iff (n : Nat) : isScalar n = true ↔ n.isValidChar := by
  simp only [isScalar, Nat.isValidChar, Bool.or_eq_true, Bool.and_eq_true, decide_eq_true_eq]
  omega

/-- The bytes written for a value are those of its character. -/
theorem encode_toInt (value : Int32) :
    encode value.toInt = String.utf8EncodeChar (character value) := by
  rw [← encodeScalar_toNat, encode]
  congr 1
  simp only [scalarOf, character, isScalar_iff]
  split
  · next valid => rw [Char.toNat_ofNat, if_pos valid.2]
  · rfl

theorem length_utf8EncodeChar (c : Char) :
    1 ≤ (String.utf8EncodeChar c).length ∧ (String.utf8EncodeChar c).length ≤ 4 := by
  rw [← encodeScalar_toNat]
  exact length_encodeScalar c.toNat

end Utf8

/-! ## Logs -/

/-- What passes between a program, its buffers and a device. -/
inductive Passage where
  /-- A value is written by the program. -/
  | wrote (value : Int32)
  /-- Bytes are offered to the device, which answers how many of them it accepted, and perhaps why
  no more. -/
  | sent (offered : List UInt8) (count : Nat) (refusal : Option String)
  /-- The device is asked for bytes. -/
  | asked (room : Nat)
deriving DecidableEq

namespace Passage

/-- The bytes of all values written. -/
def written (log : List Passage) : List UInt8 :=
  log.flatMap fun
    | wrote value => String.utf8EncodeChar (Utf8.character value)
    | _ => []

/-- All bytes accepted. -/
def accepted (log : List Passage) : List UInt8 :=
  log.flatMap fun
    | sent offered count _ => offered.take count
    | _ => []

/-- All bytes offered were accepted. -/
def Unrefused (log : List Passage) : Prop :=
  ∀ offered count refusal, sent offered count refusal ∈ log → offered.length ≤ count ∧
    refusal = none

/-- A log of output that is exact: at every moment the bytes accepted are a prefix of those written;
they are all of them whenever bytes are asked for; and what is offered to the device at once are
whole characters, of at least one byte and no more than a buffer holds. -/
structure Exact (log : List Passage) : Prop where
  always : ∀ past, past <+: log → accepted past <+: written past
  asked : ∀ past room, past ++ [.asked room] <+: log → accepted past = written past
  whole : ∀ offered count refusal, sent offered count refusal ∈ log →
    1 ≤ offered.length ∧ offered.length ≤ 4096 ∧
      ∃ chars : List Char, offered = chars.flatMap String.utf8EncodeChar

variable {log : List Passage} {e : Passage}

@[simp] theorem written_append (a b : List Passage) : written (a ++ b) = written a ++ written b :=
  List.flatMap_append

@[simp] theorem accepted_append (a b : List Passage) :
    accepted (a ++ b) = accepted a ++ accepted b :=
  List.flatMap_append

@[simp] theorem written_wrote (value : Int32) :
    written [wrote value] = String.utf8EncodeChar (Utf8.character value) := by
  simp [written]

@[simp] theorem written_sent (offered : List UInt8) (count : Nat) (refusal : Option String) :
    written [sent offered count refusal] = [] := rfl

@[simp] theorem written_asked (room : Nat) : written [.asked room] = [] := rfl

@[simp] theorem accepted_wrote (value : Int32) : accepted [wrote value] = [] := rfl

@[simp] theorem accepted_sent (offered : List UInt8) (count : Nat) (refusal : Option String) :
    accepted [sent offered count refusal] = offered.take count := by
  simp [accepted]

@[simp] theorem accepted_asked (room : Nat) : accepted [.asked room] = [] := rfl

theorem exact_nil : Exact [] := by
  refine ⟨?_, ?_, nofun⟩
  · intro past h
    rw [List.prefix_nil.1 h]
    exact List.prefix_refl _
  · intro past room h
    simp at h

/-- What has to be seen when a log grows. -/
theorem Exact.snoc (h : Exact log) (always : accepted (log ++ [e]) <+: written (log ++ [e]))
    (asked : ∀ room, e = .asked room → accepted log = written log)
    (whole : ∀ offered count refusal, e = sent offered count refusal →
      1 ≤ offered.length ∧ offered.length ≤ 4096 ∧
        ∃ chars : List Char, offered = chars.flatMap String.utf8EncodeChar) :
    Exact (log ++ [e]) := by
  refine ⟨?_, ?_, ?_⟩
  · intro past shorter
    rcases List.prefix_concat_iff.1 shorter with rfl | earlier
    · exact always
    · exact h.always past earlier
  · intro past room shorter
    rcases List.prefix_concat_iff.1 shorter with now | earlier
    · obtain ⟨rfl, same⟩ := List.append_inj' now rfl
      exact asked room (List.singleton_inj.1 same).symm
    · exact h.asked past room earlier
  · intro offered count refusal member
    rcases List.mem_append.1 member with earlier | now
    · exact h.whole offered count refusal earlier
    · exact whole offered count refusal (List.mem_singleton.1 now).symm

end Passage

/-! ## Devices and hosts with a log -/

/-- A device with a log. -/
structure Tapped (δ : Type) where
  device : δ
  log : List Passage := []

namespace Tapped

variable {δ : Type} [Device δ]

instance : Device (Tapped δ) where
  read room t :=
    let (bytes, failure, device) := Device.read room t.device
    (bytes, failure, { device := device, log := t.log ++ [.asked room] })
  write bytes t :=
    let (count, refusal, device) := Device.write bytes t.device
    (count, refusal, { device := device, log := t.log ++ [.sent bytes count refusal] })

theorem hom_device : Device.Hom (Tapped.device : Tapped δ → δ) :=
  ⟨fun _ _ => rfl, fun _ _ => rfl⟩

end Tapped

/-- A buffered device with a log of what is written and of what passes the device. -/
structure Watched (δ : Type) where
  buffered : Buffered (Tapped δ)

namespace Watched

variable {δ : Type}

/-- The log. -/
def log (s : Watched δ) : List Passage :=
  s.buffered.device.log

/-- Records a value that is about to be written. -/
def note (value : Int32) (s : Watched δ) : Buffered (Tapped δ) :=
  { s.buffered with device := { s.buffered.device with log := s.log ++ [.wrote value] } }

instance [Device δ] : Host (Watched δ) where
  read s := (s.buffered.read.1, ⟨s.buffered.read.2⟩)
  write value s := (((s.note value).write value).1, ⟨((s.note value).write value).2⟩)
  flush s := (s.buffered.flush.1, ⟨s.buffered.flush.2⟩)

/-- Empty buffers before a device, and an empty log. -/
def new (device : δ) : Watched δ :=
  ⟨{ device := { device := device } }⟩

/-- The same without a log. -/
def plain (s : Watched δ) : Buffered δ :=
  s.buffered.map Tapped.device

/-- Logs make no difference to what the primitives do. -/
theorem hom_plain [Device δ] : Host.Hom (plain : Watched δ → Buffered δ) := by
  have hom := Buffered.hom_map (Tapped.hom_device (δ := δ))
  exact ⟨fun s => hom.read s.buffered, fun value s => hom.write value (s.note value),
    fun s => hom.flush s.buffered⟩

end Watched

/-- A screen passes on what is written and what is read. -/
theorem Screen.hom_inner {δ : Type} [Device δ] : Device.Hom (Screen.inner : Screen δ → δ) :=
  ⟨fun _ _ => rfl, fun _ _ => rfl⟩

/-! ## What the buffer holds -/

namespace Buffered

/-- What sending comes to: it has failed before, or there is nothing to send, or the device accepts
all bytes, or it does not, and keeps the others from being sent. -/
theorem flush_cases {δ : Type} [Device δ] (s : Buffered δ) :
    (∃ reason, s.outputFailure = some reason ∧ s.flush = (.error reason, s)) ∨
    (s.outputFailure = none ∧ s.output = #[] ∧ s.flush = (.ok (), s)) ∨
    (s.outputFailure = none ∧ s.output ≠ #[] ∧
      ∃ count refusal device, Device.write s.output.toList s.device = (count, refusal, device) ∧
        ((s.output.size ≤ count ∧ refusal = none ∧
            s.flush = (.ok (), { s with device := device, output := #[] })) ∨
          (¬ (s.output.size ≤ count ∧ refusal = none) ∧ ∃ reason,
            s.flush = (.error reason, { s with
              device := device, output := s.output.extract count,
              outputFailure := some reason })))) := by
  cases failed : s.outputFailure with
  | some reason => exact .inl ⟨reason, rfl, by simp only [flush, failed]⟩
  | none =>
    by_cases empty : s.output = #[]
    · exact .inr (.inl ⟨rfl, empty, by simp [flush, failed, empty]⟩)
    refine .inr (.inr ⟨rfl, empty, ?_⟩)
    rcases sent : Device.write s.output.toList s.device with ⟨count, refusal, device⟩
    have some_byte : s.output.isEmpty = false := by
      rw [Array.isEmpty_eq_false_iff]
      exact empty
    refine ⟨count, refusal, device, rfl, ?_⟩
    simp only [flush, failed, some_byte, sent, Bool.false_eq_true, if_false]
    cases refusal with
    | some reason => exact .inr ⟨by simp, reason, by simp⟩
    | none =>
      by_cases short : count < s.output.size
      · exact .inr ⟨by omega, "short write", by simp [short]⟩
      · exact .inl ⟨by omega, rfl, by simp [short]⟩

/-- A flush after which sending still works has succeeded. -/
theorem flush_of_works {δ : Type} [Device δ] {s : Buffered δ}
    (works : s.flush.2.outputFailure = none) : s.outputFailure = none ∧ s.flush.1 = .ok () := by
  rcases s.flush_cases with ⟨reason, failed, flushed⟩ | ⟨before, -, flushed⟩ |
      ⟨before, -, count, refusal, device, -, ⟨-, -, flushed⟩ | ⟨-, reason, flushed⟩⟩
  · rw [flushed, failed] at works
    cases works
  · rw [flushed]
    exact ⟨before, rfl⟩
  · rw [flushed]
    exact ⟨before, rfl⟩
  · rw [flushed] at works
    cases works

/-- A flush that has succeeded has sent everything. -/
theorem works_of_flush {δ : Type} [Device δ] {s : Buffered δ} (sent : s.flush.1 = .ok ()) :
    s.flush.2.output = #[] ∧ s.flush.2.outputFailure = none := by
  rcases s.flush_cases with ⟨reason, -, flushed⟩ | ⟨before, empty, flushed⟩ |
      ⟨before, -, count, refusal, device, -, ⟨-, -, flushed⟩ | ⟨-, reason, flushed⟩⟩
  · rw [flushed] at sent
    cases sent
  · rw [flushed]
    exact ⟨empty, before⟩
  · rw [flushed]
    exact ⟨rfl, before⟩
  · rw [flushed] at sent
    cases sent

/-- A flush leaves what was read, and does no more to the device than to write to it. -/
theorem flush_leaves {δ : Type} [Device δ] (s : Buffered δ) :
    s.flush.2.input = s.input ∧ s.flush.2.inputFailure = s.inputFailure ∧
      (s.flush.2.device = s.device ∨
        s.flush.2.device = (Device.write s.output.toList s.device).2.2) := by
  rcases s.flush_cases with ⟨reason, -, flushed⟩ | ⟨-, -, flushed⟩ |
      ⟨-, -, count, refusal, device, sent, ⟨-, -, flushed⟩ | ⟨-, reason, flushed⟩⟩
  · rw [flushed]
    exact ⟨rfl, rfl, .inl rfl⟩
  · rw [flushed]
    exact ⟨rfl, rfl, .inl rfl⟩
  · rw [flushed, sent]
    exact ⟨rfl, rfl, .inr rfl⟩
  · rw [flushed, sent]
    exact ⟨rfl, rfl, .inr rfl⟩

/-- What writing comes to: it appends the bytes of the value, after a flush if there is no room for
them, unless sending has failed. -/
theorem write_cases {δ : Type} [Device δ] (value : Int32) (s : Buffered δ) :
    (s.outputFailure ≠ none ∧ (s.write value).2 = s) ∨
    (s.outputFailure = none ∧
      (s.write value).2 = { s with output := s.output.appendList (Utf8.encode value.toInt) }) ∨
    (s.flush.1 ≠ .ok () ∧ (s.write value).2 = s.flush.2) ∨
    (s.flush.1 = .ok () ∧
      (s.write value).2 =
        { s.flush.2 with output := s.flush.2.output.appendList (Utf8.encode value.toInt) }) := by
  cases failed : s.outputFailure with
  | some reason => exact .inl ⟨Option.some_ne_none _, by simp only [write, failed]⟩
  | none =>
    right
    by_cases room : s.output.size + needed (Utf8.encode value.toInt) ≤ capacity
    · exact .inl ⟨rfl, by simp only [write, failed, if_pos room]⟩
    right
    rcases flushed : s.flush with ⟨reason | _, s'⟩
    · left
      refine ⟨?_, by simp only [write, failed, if_neg room, flushed]⟩
      intro sent
      cases sent
    · exact .inr ⟨rfl, by simp only [write, failed, if_neg room, flushed]⟩

/-- Sending that works after a write has worked before it. -/
theorem works_of_write {δ : Type} [Device δ] {value : Int32} {s : Buffered δ}
    (works : (s.write value).2.outputFailure = none) : s.outputFailure = none := by
  rcases s.write_cases value with ⟨-, same⟩ | ⟨before, -⟩ | ⟨-, same⟩ | ⟨-, same⟩
  · rwa [same] at works
  · exact before
  · rw [same] at works
    exact (flush_of_works works).1
  · rw [same] at works
    exact (flush_of_works works).1

/-- Sending that works after a read has worked before it, and a character was read. -/
theorem read_of_works {δ : Type} [Device δ] {s : Buffered δ}
    (works : s.read.2.outputFailure = none) :
    s.flush.2.outputFailure = none ∧ s.read = s.flush.2.readChar := by
  have succeeds : s.flush.2.outputFailure = none → _ := flush_of_works
  unfold read at works ⊢
  rcases flushed : s.flush with ⟨reason | _, s'⟩
  · rw [flushed] at works succeeds
    cases (succeeds works).2
  · rw [flushed] at works
    have waits : Waits fun t : Buffered δ => t.outputFailure = s'.outputFailure :=
      ⟨fun _ _ same => same, fun _ _ _ same => same⟩
    have kept : s'.readChar.2.outputFailure = s'.outputFailure := waits.readChar s' rfl
    exact ⟨kept.symm.trans works, rfl⟩

variable {δ : Type}

open Passage

/-- The log of a buffered device. -/
def log (s : Buffered (Tapped δ)) : List Passage :=
  s.device.log

/-- The order between what was accepted, the buffer and what was written. While sending has not
failed, the bytes that are `owed`, that is written but not in the buffer yet, are all that is
missing. -/
structure Tidy (owed : List UInt8) (s : Buffered (Tapped δ)) : Prop where
  history : Exact s.log
  order : accepted s.log ++ s.output.toList <+: written s.log
  level : s.outputFailure = none → accepted s.log ++ s.output.toList ++ owed = written s.log
  whole : s.outputFailure = none → s.output.size ≤ 4096 ∧
    ∃ chars : List Char, s.output.toList = chars.flatMap String.utf8EncodeChar
  blame : s.outputFailure ≠ none → ¬ Unrefused s.log

variable {owed : List UInt8} {s : Buffered (Tapped δ)}

theorem Tidy.accepted_prefix (h : s.Tidy owed) : accepted s.log <+: written s.log :=
  (List.prefix_append _ _).trans h.order

/-- Where nothing is owed and nothing is in the buffer, all was accepted. -/
theorem Tidy.accepted_eq (h : s.Tidy []) (sent : s.output = #[]) (works : s.outputFailure = none) :
    accepted s.log = written s.log := by
  have level := h.level works
  rwa [sent, List.append_nil, List.append_nil] at level

/-- Offering the buffer to the device moves bytes from the buffer to those accepted. -/
theorem Tidy.offer [Device δ] (h : s.Tidy owed) (works : s.outputFailure = none)
    (some_byte : s.output ≠ #[]) {count : Nat} {refusal : Option String} {device : Tapped δ}
    (sent : Device.write s.output.toList s.device = (count, refusal, device)) :
    Exact device.log ∧ accepted device.log ++ s.output.toList.drop count =
      accepted s.log ++ s.output.toList ∧ written device.log = written s.log ∧
      (¬ (s.output.size ≤ count ∧ refusal = none) → ¬ Unrefused device.log) := by
  have grown : device.log = s.log ++ [.sent s.output.toList count refusal] := by
    rcases inner : Device.write s.output.toList s.device.device with ⟨count', refusal', device'⟩
    simp only [Device.write, inner, Prod.mk.injEq] at sent
    obtain ⟨rfl, rfl, rfl⟩ := sent
    rfl
  rw [grown]
  refine ⟨h.history.snoc ?_ nofun ?_, ?_, ?_, ?_⟩
  · rw [accepted_append, accepted_sent, written_append, written_sent, List.append_nil]
    refine List.IsPrefix.trans ?_ h.order
    rw [List.prefix_append_right_inj]
    exact List.take_prefix _ _
  · rintro offered count' refusal' ⟨⟩
    obtain ⟨small, chars, same⟩ := h.whole works
    refine ⟨?_, small, chars, same⟩
    exact Array.size_pos_iff.2 some_byte
  · rw [accepted_append, accepted_sent, List.append_assoc, List.take_append_drop]
  · rw [written_append, written_sent, List.append_nil]
  · intro refused all
    exact refused (all _ _ _ (List.mem_append_right _ List.mem_cons_self))

/-- Sending keeps the order. If it succeeds, the buffer is empty, and if not, it has failed for
good. -/
theorem Tidy.flush [Device δ] (h : s.Tidy owed) :
    s.flush.2.Tidy owed ∧
      (s.flush.1 = .ok () → s.flush.2.output = #[] ∧ s.flush.2.outputFailure = none) ∧
        (s.flush.2.outputFailure = none → s.flush.1 = .ok ()) := by
  refine ⟨?_, works_of_flush, fun works => (flush_of_works works).2⟩
  rcases s.flush_cases with ⟨reason, -, flushed⟩ | ⟨-, -, flushed⟩ |
      ⟨works, some_byte, count, refusal, device, sent, ⟨all, none, flushed⟩ |
        ⟨part, reason, flushed⟩⟩
  · rw [flushed]
    exact h
  · rw [flushed]
    exact h
  · obtain ⟨history, moved, same, -⟩ := h.offer works some_byte sent
    rw [List.drop_of_length_le all] at moved
    rw [flushed]
    refine ⟨history, ?_, fun _ => ?_, fun _ => ⟨by simp, [], rfl⟩, ?_⟩
    · show accepted device.log ++ [] <+: written device.log
      rw [moved, same]
      exact h.order
    · show accepted device.log ++ [] ++ owed = written device.log
      rw [moved, same]
      exact h.level works
    · exact fun failed => absurd works failed
  · obtain ⟨history, moved, same, refused⟩ := h.offer works some_byte sent
    rw [flushed]
    refine ⟨history, ?_, nofun, nofun, fun _ => refused part⟩
    show accepted device.log ++ (s.output.extract count).toList <+: written device.log
    rw [Array.toList_extract, List.extract_eq_take_drop, ← Array.length_toList, ← List.length_drop,
      List.take_length, moved, same]
    exact h.order

/-- Putting the bytes that are owed into the buffer. -/
theorem Tidy.append {c : Char} (h : s.Tidy (String.utf8EncodeChar c))
    (works : s.outputFailure = none)
    (room : s.output.size + (String.utf8EncodeChar c).length ≤ 4096) :
    ({ s with output := s.output.appendList (String.utf8EncodeChar c) } : Buffered (Tapped δ)).Tidy
      [] := by
  have bytes : (s.output.appendList (String.utf8EncodeChar c)).toList =
      s.output.toList ++ String.utf8EncodeChar c := Array.toList_appendList ..
  have level : accepted s.log ++ (s.output.toList ++ String.utf8EncodeChar c) = written s.log := by
    rw [← List.append_assoc]
    exact h.level works
  refine ⟨h.history, ?_, fun _ => ?_, fun _ => ⟨?_, ?_⟩, h.blame⟩
  · show accepted s.log ++ (s.output.appendList (String.utf8EncodeChar c)).toList <+: written s.log
    rw [bytes, level]
  · show accepted s.log ++ (s.output.appendList (String.utf8EncodeChar c)).toList ++ [] =
      written s.log
    rw [bytes, List.append_nil, level]
  · show (s.output.appendList (String.utf8EncodeChar c)).size ≤ 4096
    rw [← Array.length_toList, bytes, List.length_append]
    exact room
  · obtain ⟨-, chars, same⟩ := h.whole works
    refine ⟨chars ++ [c], ?_⟩
    show (s.output.appendList (String.utf8EncodeChar c)).toList = _
    rw [bytes, same, List.flatMap_append, List.flatMap_singleton]

/-- Once sending has failed, what is owed is never sent. -/
theorem Tidy.waive (h : s.Tidy owed) (failed : s.outputFailure ≠ none) : s.Tidy [] :=
  ⟨h.history, h.order, fun works => absurd works failed, fun works => absurd works failed, h.blame⟩

/-- A state in which bytes may be asked for: nothing is left to be sent. -/
structure Idle (s : Buffered (Tapped δ)) : Prop where
  tidy : s.Tidy []
  sent : s.output = #[]
  works : s.outputFailure = none

/-- Asking for bytes leaves nothing to be sent either. -/
theorem Idle.ask (h : s.Idle) (input : List UInt8) (failure : Option Failure) (device : δ)
    (room : Nat) :
    ({ s with
      device := { device := device, log := s.log ++ [.asked room] }
      input := input
      inputFailure := failure } : Buffered (Tapped δ)).Idle := by
  have complete := h.tidy.accepted_eq h.sent h.works
  have grown : accepted (s.log ++ [.asked room]) = written (s.log ++ [.asked room]) := by
    rw [accepted_append, written_append, complete, accepted_asked, written_asked]
  refine ⟨⟨?_, ?_, fun _ => ?_, h.tidy.whole, fun failed => absurd h.works failed⟩, h.sent, h.works⟩
  · exact h.tidy.history.snoc (by rw [grown]) (fun _ _ => complete) nofun
  · show accepted (s.log ++ [.asked room]) ++ s.output.toList <+: written (s.log ++ [.asked room])
    rw [h.sent, grown, List.append_nil]
  · show accepted (s.log ++ [.asked room]) ++ s.output.toList ++ [] =
      written (s.log ++ [.asked room])
    rw [h.sent, grown, List.append_nil, List.append_nil]

/-- What was read does not count. -/
theorem Idle.withInput (h : s.Idle) (input : List UInt8) (failure : Option Failure) :
    ({ s with input := input, inputFailure := failure } : Buffered (Tapped δ)).Idle :=
  ⟨⟨h.tidy.history, h.tidy.order, h.tidy.level, h.tidy.whole, h.tidy.blame⟩, h.sent, h.works⟩

/-- A device with nothing to send still has nothing after waiting for a character. -/
theorem waits_idle [Device δ] : Waits fun s : Buffered (Tapped δ) => s.Idle := by
  refine ⟨?_, ?_⟩
  · intro s room h
    exact h.ask s.input s.inputFailure _ room
  · intro s input failure h
    exact h.withInput input failure

end Buffered

/-! ## The primitives keep order -/

namespace Watched

open Passage Buffered

variable {δ : Type} {s : Watched δ}

/-- A new device is tidy. -/
theorem tidy_new (device : δ) : (new device).buffered.Tidy [] :=
  ⟨exact_nil, List.prefix_refl _, fun _ => rfl, fun _ => ⟨Nat.zero_le _, [], rfl⟩,
    fun failed => absurd rfl failed⟩

/-- The bytes of a value that is about to be written are owed. -/
theorem tidy_note (h : s.buffered.Tidy []) (value : Int32) :
    (s.note value).Tidy (String.utf8EncodeChar (Utf8.character value)) := by
  have grown : (s.note value).log = s.buffered.log ++ [.wrote value] := rfl
  have longer : written s.buffered.log <+: written (s.note value).log := by
    rw [grown, written_append]
    exact List.prefix_append _ _
  have same : accepted (s.note value).log = accepted s.buffered.log := by
    rw [grown, accepted_append, accepted_wrote, List.append_nil]
  refine ⟨?_, ?_, fun works => ?_, h.whole, fun failed all => ?_⟩
  · rw [grown]
    refine h.history.snoc ?_ nofun nofun
    rw [← grown, same]
    exact h.accepted_prefix.trans longer
  · rw [same]
    exact h.order.trans longer
  · have level := h.level works
    rw [List.append_nil] at level
    rw [same, grown, written_append, written_wrote, ← level]
    rfl
  · refine h.blame failed fun offered count refusal member => all offered count refusal ?_
    rw [grown]
    exact List.mem_append_left _ member

variable [Device δ]

/-- A write keeps a device tidy, whether it is sent on or not. -/
theorem tidy_write (h : s.buffered.Tidy []) (value : Int32) :
    ((s.note value).write value).2.Tidy [] := by
  have noted := tidy_note h value
  have size := Utf8.length_utf8EncodeChar (Utf8.character value)
  simp only [Buffered.write, Utf8.encode_toInt]
  split
  · next reason failed =>
    refine noted.waive ?_
    rw [failed]
    exact Option.some_ne_none _
  · next works =>
    split
    · next room =>
      refine noted.append works (Nat.le_trans (Nat.add_le_add_left ?_ _) room)
      rw [needed, longest]
      split <;> omega
    · obtain ⟨flushed, sent, succeeds⟩ := noted.flush
      split
      · next reason s' refused =>
        rw [refused] at flushed succeeds
        exact flushed.waive fun works' => by cases succeeds works'
      · next s' done =>
        rw [done] at flushed sent
        obtain ⟨empty, works'⟩ := sent rfl
        refine flushed.append works' ?_
        rw [empty]
        exact Nat.le_trans (by simpa using size.2) (by decide)

/-- A read keeps a device tidy, for it sends everything on first. -/
theorem tidy_read (h : s.buffered.Tidy []) : s.buffered.read.2.Tidy [] := by
  obtain ⟨flushed, sent, -⟩ := h.flush
  simp only [Buffered.read]
  split
  · next reason s' refused =>
    rw [refused] at flushed
    exact flushed
  · next s' done =>
    rw [done] at flushed sent
    obtain ⟨empty, works⟩ := sent rfl
    exact (waits_idle.readChar s' ⟨flushed, empty, works⟩).tidy

/-- The primitives keep the order of output. -/
theorem keeps_tidy : Host.Keeps fun s : Watched δ => s.buffered.Tidy [] :=
  ⟨fun _ h => tidy_read h, fun value _ h => tidy_write h value, fun _ h => h.flush.1⟩

/-! ## Sessions -/

/-- Output of programs that run one after another from a state on is exact. -/
structure Exact (start : Watched δ) : Prop where
  /-- At any time between and during the programs the log is exact. -/
  always : ∀ host, Machine.Visits start host → Passage.Exact host.log
  /-- A run that ends without a fault has sent all that was written so far. So has a run that ends
  with a fault, if the device never refused a byte. -/
  finished : ∀ before source code limit report m after, Machine.Session start before →
    build source = .ok code → ({} : Machine).run code limit before = .done report m after →
    report.fault = none ∨ Unrefused after.log → accepted after.log = written after.log
  /-- Without a log, steps and runs are the same. -/
  unlogged : ∀ (m : Machine) code limit (host : Watched δ),
    m.step code host.plain = (m.step code host).mapHost plain ∧
      m.run code limit host.plain = (m.run code limit host).mapHost plain
  /-- They are the same with a screen before the device. -/
  screened : ∀ (m : Machine) code limit (host : Watched δ) (screen : Buffered (Screen δ)),
    screen.map Screen.inner = host.plain →
      (m.step code screen).mapHost (Buffered.map Screen.inner) = (m.step code host).mapHost plain ∧
        (m.run code limit screen).mapHost (Buffered.map Screen.inner) =
          (m.run code limit host).mapHost plain

/-- **Output is exact, in order and never torn, whatever the device does.** For every device and any
programs run one after another on buffers before it: the bytes accepted are at all times a prefix of
the encoding of all values written, with `U+FFFD` for values that are no characters; they are all of
it whenever bytes are asked for and whenever a run ends without a fault, or, if the device never
refuses bytes, with one; and each time the device is offered between 1 and 4096 bytes that are whole
characters. -/
theorem exact_new (device : δ) : (new device).Exact := by
  refine ⟨?_, ?_, ?_, ?_⟩
  · intro host visits
    exact (Machine.keeps_of_visits keeps_tidy visits (tidy_new device)).history
  · intro before source code limit report m after session _ ended good
    have ordered := Machine.keeps_of_session keeps_tidy session (tidy_new device)
    obtain ⟨last, held, rfl, succeeds⟩ := Machine.keeps_of_run keeps_tidy ordered ended
    obtain ⟨flushed, sent, works⟩ := held.flush
    have done : last.buffered.flush.1 = .ok () := by
      rcases good with none | all
      · exact succeeds none
      · refine works ?_
        by_contra failed
        exact flushed.blame failed all
    obtain ⟨empty, working⟩ := sent done
    exact flushed.accepted_eq empty working
  · intro m code limit host
    exact ⟨Machine.step_mapHost hom_plain m host, Machine.run_mapHost hom_plain m limit host⟩
  · intro m code limit host screen same
    have hom := Buffered.hom_map (Screen.hom_inner (δ := δ))
    rw [← Machine.step_mapHost hom_plain, ← Machine.run_mapHost hom_plain, ← same,
      Machine.step_mapHost hom, Machine.run_mapHost hom]
    exact ⟨rfl, rfl⟩

/-- A device that has room for one byte more accepts the first byte of a character of two, and no
byte of the next one. -/
example :
    (Host.write 65 (Host.flush (Host.write 233 (new ({ space := some 1 } : Pipe))).2).2).2.log =
      [.wrote 233, .sent [0xC3, 0xA9] 1 (some "disk full"), .wrote 65] := by
  decide

end Watched

end TapeLang
