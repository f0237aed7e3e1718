/-
# Runs in front of related hosts

A machine sees its host only through what the primitives answer. So a map between the states of two
hosts that commutes with the primitives takes the runs in front of the one to the runs in front of
the other, with the same reports and the same machines: `Machine.run_mapHost`.

Two uses of this are made. A host with a log behaves as the host without it. And a property of a
host's state that all primitives keep is kept by runs: the states that have the property are a host
of their own, and the inclusion is such a map (`Machine.keeps_of_reaches`, `Machine.keeps_of_run`).
-/
import TapeLang.Build
import TapeLang.Proofs.Fetch
import TapeLang.Stream.Buffered

namespace TapeLang

/-! ## Maps between hosts -/

/-- A map between the states of hosts that commutes with the primitives. -/
structure Host.Hom {σ τ : Type} [Host σ] [Host τ] (f : σ → τ) : Prop where
  read : ∀ s, Host.read (f s) = ((Host.read s).1, f (Host.read s).2)
  write : ∀ value s, Host.write value (f s) = ((Host.write value s).1, f (Host.write value s).2)
  flush : ∀ s, Host.flush (f s) = ((Host.flush s).1, f (Host.flush s).2)

/-- Changes the host that a step leaves. -/
def Step.mapHost {σ τ : Type} (f : σ → τ) : Step σ → Step τ
  | .next m host => .next m (f host)
  | .halt result m host => .halt result m (f host)
  | .fault cause m host => .fault cause m (f host)
  | .broken how host => .broken how (f host)

namespace Machine

/-- Changes the host that steps leave. -/
def Stop.mapHost {σ τ : Type} (f : σ → τ) : Stop σ → Stop τ
  | .halt result m host => .halt result m (f host)
  | .fault cause m host => .fault cause m (f host)
  | .broken how host => .broken how (f host)
  | .unfinished => .unfinished

/-- Changes the host that a run leaves. -/
def Ending.mapHost {σ τ : Type} (f : σ → τ) : Ending σ → Ending τ
  | .done report m host => .done report m (f host)
  | .broken how host => .broken how (f host)
  | .unfinished => .unfinished

variable {σ τ : Type} {f : σ → τ} {code : Bytecode}

/-! ### Steps -/

/-- Pushing a value does not look at the host. -/
theorem push_mapHost (m : Machine) (value : Int32) (host : σ) :
    m.push value (f host) = (m.push value host).mapHost f := by
  unfold push
  split <;> rfl

/-- Changing a cell does not look at the host. -/
theorem storeCell_mapHost (m : Machine) (index value : Int32) (host : σ) :
    m.storeCell index value (f host) = (m.storeCell index value host).mapHost f := by
  unfold storeCell
  split <;> rfl

/-- Reading a cell does not look at the host. -/
theorem loadCell_mapHost (m : Machine) (index : Int32) (host : σ) :
    m.loadCell index (f host) = (m.loadCell index host).mapHost f := by
  unfold loadCell
  split
  · exact push_mapHost m _ host
  · rfl

/-- Binding a key does not look at the host. -/
theorem bind_mapHost (m : Machine) (key : Int32) (handle : Handle) (host : σ) :
    m.bind key handle (f host) = (m.bind key handle host).mapHost f := by
  unfold bind
  split
  · rfl
  · split <;> rfl

/-- Looking a key up does not look at the host. -/
theorem find_mapHost (m : Machine) (key : Int32) (host : σ) :
    m.find key (f host) = (m.find key host).mapHost f := by
  unfold find
  split
  · rfl
  · exact push_mapHost _ _ host

/-- Calling a procedure does not look at the host. -/
theorem invoke_mapHost (m : Machine) (procedures : Nat) (handle : Int32) (host : σ) :
    m.invoke procedures handle (f host) = (m.invoke procedures handle host).mapHost f := by
  unfold invoke call
  split
  · split <;> rfl
  · split <;> rfl

variable [Host σ] [Host τ]

/-- An instruction does the same in front of both hosts. -/
theorem execute_mapHost (hom : Host.Hom f) (m : Machine) (host : σ) (i : Instruction) :
    m.execute code (f host) i = (m.execute code host i).mapHost f := by
  cases i with
  | newTape | newTable | loop => rfl
  | constant | loadPointer | loadScratch | procedure => exact push_mapHost m _ host
  | storePointer | storeScratch | jumpZero | returnValue =>
    simp only [execute]
    cases m.stack <;> rfl
  | leave =>
    simp only [execute]
    cases m.callers <;> rfl
  | loadCell =>
    simp only [execute]
    cases m.stack with
    | nil => rfl
    | cons index stack => exact loadCell_mapHost _ index host
  | storeCell =>
    simp only [execute]
    rcases m.stack with _ | ⟨value, _ | ⟨index, stack⟩⟩
    · rfl
    · rfl
    · exact storeCell_mapHost _ index value host
  | add | sub =>
    simp only [execute]
    rcases m.stack with _ | ⟨b, _ | ⟨a, stack⟩⟩
    · rfl
    · rfl
    · exact push_mapHost _ _ host
  | read =>
    simp only [execute, hom.read]
    rcases Host.read host with ⟨_ | value, host'⟩
    · rfl
    · exact push_mapHost m value host'
  | write =>
    simp only [execute]
    cases m.stack with
    | nil => rfl
    | cons value stack =>
      simp only [hom.write]
      rcases Host.write value host with ⟨_ | _, host'⟩ <;> rfl
  | register =>
    simp only [execute]
    rcases m.stack with _ | ⟨handle, _ | ⟨key, stack⟩⟩
    · rfl
    · rfl
    · exact bind_mapHost _ key _ host
  | lookup =>
    simp only [execute]
    cases m.stack with
    | nil => rfl
    | cons key stack => exact find_mapHost _ key host
  | invoke =>
    simp only [execute]
    cases m.stack with
    | nil => rfl
    | cons handle stack => exact invoke_mapHost _ _ handle host

/-- A map between hosts maps each step of a machine. -/
theorem step_mapHost (hom : Host.Hom f) (m : Machine) (host : σ) :
    m.step code (f host) = (m.step code host).mapHost f := by
  simp only [step]
  split
  · rfl
  · split
    · rfl
    · split
      · rfl
      · split
        · rfl
        · exact execute_mapHost hom _ host _

/-! ### Runs -/

/-- A map between hosts maps the steps of a machine up to any limit. -/
theorem steps_mapHost (hom : Host.Hom f) (limit : Nat) (m : Machine) (host : σ) :
    steps code limit m (f host) = (steps code limit m host).mapHost f := by
  induction limit generalizing m host with
  | zero => rfl
  | succ limit ih =>
    rw [steps, steps, step_mapHost hom]
    cases m.step code host with
    | next m' host' => exact ih m' host'
    | halt _ _ _ | fault _ _ _ | broken _ _ => rfl

/-- A map between hosts maps the end of a run, its flush included. -/
theorem finish_mapHost (hom : Host.Hom f) (m : Machine) (report : Report) (host : σ) :
    m.finish report (f host) = (m.finish report host).mapHost f := by
  simp only [finish, hom.flush]
  rcases Host.flush host with ⟨_ | _, host'⟩ <;> cases report.fault <;> rfl

/-- **Runs in front of related hosts** end alike, with related hosts. -/
theorem run_mapHost (hom : Host.Hom f) (m : Machine) (limit : Nat) (host : σ) :
    m.run code limit (f host) = (m.run code limit host).mapHost f := by
  rw [run, run, steps_mapHost hom]
  cases steps code limit m host with
  | halt _ _ _ | fault _ _ _ => exact finish_mapHost hom _ _ _
  | broken _ _ | unfinished => rfl

end Machine

/-! ## Maps between devices -/

/-- A map between the states of devices that commutes with reading and writing. -/
structure Device.Hom {δ ε : Type} [Device δ] [Device ε] (f : δ → ε) : Prop where
  read : ∀ room d, Device.read room (f d) =
    ((Device.read room d).1, (Device.read room d).2.1, f (Device.read room d).2.2)
  write : ∀ bytes d, Device.write bytes (f d) =
    ((Device.write bytes d).1, (Device.write bytes d).2.1, f (Device.write bytes d).2.2)

namespace Buffered

variable {δ ε : Type} {f : δ → ε}

/-- Changes the device behind buffers. -/
def map (f : δ → ε) (s : Buffered δ) : Buffered ε where
  device := f s.device
  input := s.input
  inputFailure := s.inputFailure
  output := s.output
  outputFailure := s.outputFailure

variable [Device δ] [Device ε]

/-- A map between devices maps sending on what was written. -/
theorem flush_map (hom : Device.Hom f) (s : Buffered δ) :
    (s.map f).flush = (s.flush.1, s.flush.2.map f) := by
  cases failed : s.outputFailure with
  | some reason => simp [flush, map, failed]
  | none =>
    by_cases empty : s.output.isEmpty
    · simp [flush, map, failed, empty]
    · simp only [flush, map, failed, empty, hom.write, Bool.false_eq_true, if_false]
      rcases Device.write s.output.toList s.device with ⟨count, refusal, device⟩
      dsimp only
      generalize (if refusal.isNone ∧ count < s.output.size then some "short write" else refusal) =
        failure
      cases failure <;> rfl

/-- A map between devices maps writing a value. -/
theorem write_map (hom : Device.Hom f) (value : Int32) (s : Buffered δ) :
    (s.map f).write value = ((s.write value).1, (s.write value).2.map f) := by
  have output : (s.map f).output = s.output := rfl
  have failure : (s.map f).outputFailure = s.outputFailure := rfl
  simp only [write, output, failure, flush_map hom]
  split
  · rfl
  · split
    · rfl
    · rcases s.flush with ⟨_ | _, s'⟩ <;> rfl

/-- A map between devices maps asking for bytes. -/
theorem fill_map (hom : Device.Hom f) (attempts : Nat) (s : Buffered δ) :
    fill attempts (s.map f) = (fill attempts s).map f := by
  induction attempts generalizing s with
  | zero => rfl
  | succ attempts ih =>
    have device : (s.map f).device = f s.device := rfl
    have input : (s.map f).input = s.input := rfl
    simp only [fill, device, input, hom.read]
    rcases Device.read (capacity - s.input.length) s.device with ⟨bytes, failure, device⟩
    dsimp only
    split
    · exact ih { s with device := device, input := s.input ++ bytes, inputFailure := failure }
    · rfl

/-- A map between devices maps waiting for a character. -/
theorem await_map (hom : Device.Hom f) (rounds : Nat) (s : Buffered δ) :
    await rounds (s.map f) = (await rounds s).map f := by
  induction rounds generalizing s with
  | zero => rfl
  | succ rounds ih =>
    have input : (s.map f).input = s.input := rfl
    have failure : (s.map f).inputFailure = s.inputFailure := rfl
    simp only [await, input, failure, fill_map hom]
    split
    · exact ih _
    · rfl

/-- A map between devices maps reading a character. -/
theorem readChar_map (hom : Device.Hom f) (s : Buffered δ) :
    (s.map f).readChar = (s.readChar.1, s.readChar.2.map f) := by
  have input (s : Buffered δ) : (s.map f).input = s.input := rfl
  have failure (s : Buffered δ) : (s.map f).inputFailure = s.inputFailure := rfl
  simp only [readChar, await_map hom, input, failure]
  split
  · rcases (await longest s).inputFailure with _ | _ | _ <;> rfl
  · rfl

/-- A map between devices maps reading a value. -/
theorem read_map (hom : Device.Hom f) (s : Buffered δ) :
    (s.map f).read = (s.read.1, s.read.2.map f) := by
  simp only [read, flush_map hom]
  rcases s.flush with ⟨_ | _, s'⟩
  · rfl
  · exact readChar_map hom s'

/-- A map between devices is one between hosts when they are buffered. -/
theorem hom_map (hom : Device.Hom f) : Host.Hom (map f) :=
  ⟨read_map hom, write_map hom, flush_map hom⟩

end Buffered

namespace Buffered

variable {δ : Type} [Device δ] {holds : Buffered δ → Prop}

/-- What a buffered device keeps while it waits for a character: asking the device keeps it, and
what is done to the bytes that have arrived does not matter. -/
structure Waits (holds : Buffered δ → Prop) : Prop where
  ask : ∀ s room, holds s → holds { s with device := (Device.read room s.device).2.2 }
  input : ∀ s input failure, holds s → holds { s with input := input, inputFailure := failure }

/-- Asking for bytes keeps what waiting for a character keeps, however often it is done. -/
theorem Waits.fill (waits : Waits holds) (attempts : Nat) (s : Buffered δ) (before : holds s) :
    holds (fill attempts s) := by
  induction attempts generalizing s with
  | zero => exact waits.input s _ _ before
  | succ attempts ih =>
    have asked := waits.input _ (s.input ++ (Device.read (capacity - s.input.length) s.device).1)
      (Device.read (capacity - s.input.length) s.device).2.1
        (waits.ask s (capacity - s.input.length) before)
    simp only [Buffered.fill]
    split
    · exact ih _ asked
    · exact asked

/-- Waiting for a character keeps it over any number of rounds. -/
theorem Waits.await (waits : Waits holds) (rounds : Nat) (s : Buffered δ) (before : holds s) :
    holds (await rounds s) := by
  induction rounds generalizing s with
  | zero => exact before
  | succ rounds ih =>
    simp only [Buffered.await]
    split
    · exact ih _ (waits.fill _ s before)
    · exact before

/-- Reading a character keeps what waiting for one keeps. -/
theorem Waits.readChar (waits : Waits holds) (s : Buffered δ) (before : holds s) :
    holds s.readChar.2 := by
  have waited := waits.await longest s before
  simp only [Buffered.readChar]
  split
  · split <;> exact waits.input _ _ _ waited
  · exact waits.input _ _ _ waited

end Buffered

/-! ## Properties that primitives keep -/

/-- A property of a host's state that its primitives keep. -/
structure Host.Keeps {σ : Type} [Host σ] (holds : σ → Prop) : Prop where
  read : ∀ s, holds s → holds (Host.read s).2
  write : ∀ value s, holds s → holds (Host.write value s).2
  flush : ∀ s, holds s → holds (Host.flush s).2

namespace Host.Keeps

variable {σ : Type} [Host σ] {holds : σ → Prop}

/-- The states with the property are a host. -/
@[reducible] def host (kept : Host.Keeps holds) : Host { s : σ // holds s } where
  read s := ((Host.read s.1).1, ⟨_, kept.read s.1 s.2⟩)
  write value s := ((Host.write value s.1).1, ⟨_, kept.write value s.1 s.2⟩)
  flush s := ((Host.flush s.1).1, ⟨_, kept.flush s.1 s.2⟩)

/-- Forgetting the property is a map between hosts. -/
theorem hom (kept : Host.Keeps holds) :
    @Host.Hom _ _ kept.host _ (Subtype.val : { s : σ // holds s } → σ) :=
  @Host.Hom.mk _ _ kept.host _ _ (fun _ => rfl) (fun _ _ => rfl) (fun _ => rfl)

end Host.Keeps

/-- The states of a host to which calls of its primitives lead, in any order and however they are
answered. -/
inductive Host.Calls {σ : Type} [Host σ] (start : σ) : σ → Prop
  | start : Calls start start
  | read {host : σ} : Calls start host → Calls start (Host.read host).2
  | write {host : σ} (value : Int32) : Calls start host → Calls start (Host.write value host).2
  | flush {host : σ} : Calls start host → Calls start (Host.flush host).2

/-- Each primitive leads from states reached by calls to such a state. -/
theorem Host.Calls.keeps {σ : Type} [Host σ] (start : σ) : Host.Keeps (Host.Calls start) :=
  ⟨fun _ => .read, fun value _ => .write value, fun _ => .flush⟩

/-- Calls keep what each primitive keeps. -/
theorem Host.Keeps.of_calls {σ : Type} [Host σ] {holds : σ → Prop} (kept : Host.Keeps holds)
    {start host : σ} (calls : Host.Calls start host) (before : holds start) : holds host := by
  induction calls with
  | start => exact before
  | read _ ih => exact kept.read _ ih
  | write value _ ih => exact kept.write value _ ih
  | flush _ ih => exact kept.flush _ ih

namespace Machine

variable {σ : Type} [Host σ] {holds : σ → Prop} {code : Bytecode}

/-- Steps that go on keep the property. -/
theorem keeps_of_reaches (kept : Host.Keeps holds) {n : Nat} {c d : Machine × σ}
    (reached : Reaches code n c d) (before : holds c.2) : holds d.2 := by
  let _ := kept.host
  induction reached with
  | refl => exact before
  | @head n m m' host host' e stepped _ ih =>
    have same : m.step code host = _ := step_mapHost kept.hom m ⟨host, before⟩
    rw [stepped] at same
    -- The same step among the states with the property leaves one of these.
    cases inside : m.step code (⟨host, before⟩ : { s // holds s }) with
    | next m'' kept' =>
      rw [inside] at same
      cases same
      exact ih kept'.2
    | halt _ _ _ | fault _ _ _ | broken _ _ =>
      rw [inside] at same
      cases same

/-- What a run does last is to send on what was written, and the report tells if that failed. -/
theorem flush_of_finish {m m' : Machine} {report report' : Report} {last host' : σ}
    (ended : m.finish report last = .done report' m' host') :
    host' = (Host.flush last).2 ∧ (report'.fault = none → (Host.flush last).1 = .ok ()) := by
  rcases flushed : Host.flush last with ⟨reason | _, host''⟩ <;> cases fault : report.fault with
    | none | some f =>
      simp only [finish, flushed, fault, Ending.done.injEq] at ended
      obtain ⟨rfl, -, rfl⟩ := ended
      simp [fault]

/-- A run keeps the property up to its last flush. -/
theorem keeps_of_run (kept : Host.Keeps holds) {m m' : Machine} {limit : Nat} {host host' : σ}
    {report : Report} (before : holds host)
    (ended : m.run code limit host = .done report m' host') :
    ∃ last, holds last ∧ host' = (Host.flush last).2 ∧
      (report.fault = none → (Host.flush last).1 = .ok ()) := by
  let _ := kept.host
  have same : steps code limit m host = _ := steps_mapHost kept.hom limit m ⟨host, before⟩
  rw [run, same] at ended
  cases inside : steps code limit m (⟨host, before⟩ : { s // holds s }) with
  | halt result m'' last | fault cause m'' last =>
    rw [inside] at ended
    exact ⟨last.1, last.2, flush_of_finish ended⟩
  | broken _ _ | unfinished =>
    rw [inside] at ended
    cases ended

/-! ## Programs one after another -/

/-- The states in which a host is left between programs that are built and run on new machines, one
after another, from a state on. -/
inductive Session (start : σ) : σ → Prop
  | start : Session start start
  | run {before after : σ} {source : List UInt8} {code : Bytecode} {limit : Nat} {report : Report}
      {m : Machine} :
      Session start before → build source = .ok code →
      ({} : Machine).run code limit before = .done report m after → Session start after

/-- The states of a host between and during such programs. -/
def Visits (start host : σ) : Prop :=
  Session start host ∨
    ∃ before source code n m, Session start before ∧ build source = .ok code ∧
      Reaches code n ({}, before) (m, host)

/-- Programs one after another keep the property that primitives keep. -/
theorem keeps_of_session (kept : Host.Keeps holds) {start host : σ} (session : Session start host)
    (before : holds start) : holds host := by
  induction session with
  | start => exact before
  | run _ _ ended ih =>
    obtain ⟨last, held, rfl, -⟩ := keeps_of_run kept ih ended
    exact kept.flush last held

/-- The property holds between and during programs. -/
theorem keeps_of_visits (kept : Host.Keeps holds) {start host : σ} (visits : Visits start host)
    (before : holds start) : holds host := by
  rcases visits with session | ⟨between, source, code, n, m, session, -, reached⟩
  · exact keeps_of_session kept session before
  · exact keeps_of_reaches kept reached (keeps_of_session kept session before)

/-- Programs do nothing to a host but call its primitives. So does any other code, on whatever
machine it runs. -/
theorem calls_of_visits {start host : σ} (visits : Visits start host) : Host.Calls start host :=
  keeps_of_visits (Host.Calls.keeps start) visits .start

/-- Steps of a machine do nothing to a host but call its primitives. -/
theorem calls_of_reaches {n : Nat} {m m' : Machine} {start before host : σ}
    (calls : Host.Calls start before) (reached : Reaches code n (m, before) (m', host)) :
    Host.Calls start host :=
  keeps_of_reaches (Host.Calls.keeps start) reached calls

end Machine

end TapeLang
