/-
# Any code is contained

Bytecode that no compiler has emitted may jump into operands, return where nothing was called, call
handles that are none, and be run again after it has stopped, in the middle of a procedure. Still
the machine stays in its bounds: the operand stack and the frames keep their limits, the frames are
procedures of the code with the main unit outermost, cells are used only on the tape, and the ways
in which a step breaks the machine are those of `Breakdown`, each under the condition that belongs
to it (`Breakdown.Occurs`).

What an instruction can do to the stack and the frames is said once, in `Machine.execute_fits`. Then
a step keeps the bounds (`Machine.Bounded.step`), and so do steps and runs one after another:
`Machine.Active.contained`.
-/
import TapeLang.Proofs.Position
import TapeLang.Proofs.Safety

namespace TapeLang

/-! ## Breaking the machine -/

/-- When a machine breaks down in a way. -/
def Breakdown.Occurs (code : Bytecode) (m : Machine) : Breakdown → Prop
  -- The instruction takes more values than the stack holds.
  | emptyStack => ∃ i position, m.fetch code = .instruction i position ∧ m.stack.length < i.pops
  -- The operand of an opcode does not fit before the end of the unit.
  | operandPastEnd => ∃ (op : Opcode) (position : Nat), m.frame.ip + 1 = position ∧
      (code.unit m.frame.unit)[position]? = some op.toByte ∧
      (code.unit m.frame.unit).size < position + 1 + Operands.total op.widths
  -- The machine stands before the unit.
  | negativePosition => m.frame.ip + 1 < 0
  -- The handle to be called is none of a procedure, and there is no table.
  | invokeWithoutTable => ∃ position handle rest, m.fetch code = .instruction .invoke position ∧
      m.stack = handle :: rest ∧ ¬ (0 ≤ handle.toInt ∧ handle.toInt < code.procedures.size) ∧
        m.table = none

/-! ## What an instruction does to the stack and the frames -/

/-- The frames after an instruction: they stay as they are, or the one that runs goes on elsewhere
in its unit, or a procedure of the code is called, or the one that runs is left. -/
inductive Frame.Turns (code : Bytecode) (frame : Frame) (callers : List Frame) :
    Instruction → Frame → List Frame → Prop
  | stays (i : Instruction) : Turns code frame callers i frame callers
  | jumps (target : UInt32) :
      Turns code frame callers (.jumpZero target) { frame with ip := target.toNat - 1 } callers
  | loops (distance : UInt32) :
      Turns code frame callers (.loop distance) { frame with ip := frame.ip - (distance.toNat + 1) }
        callers
  | calls {id : Nat} : id < code.procedures.size → callers.length + 1 < Fault.maxFrames →
      Turns code frame callers .invoke { unit := some id } (frame :: callers)
  | leaves {caller : Frame} {rest : List Frame} : callers = caller :: rest →
      Turns code frame callers .leave caller rest

/-- A step that leaves the frames as they are and keeps to the limit of the stack. -/
def Step.Rests {σ : Type} (frame : Frame) (callers : List Frame) : Step σ → Prop
  | .next m _ | .fault _ m _ =>
    m.stack.length ≤ Machine.stackLimit ∧ m.frame = frame ∧ m.callers = callers
  | .halt .. | .broken .. => False

/-- What may come of an instruction. -/
def Step.Fits {σ : Type} (code : Bytecode) (m : Machine) (host : σ) (i : Instruction) :
    Step σ → Prop
  | .next m' _ => m'.stack.length ≤ Machine.stackLimit ∧
      Frame.Turns code m.frame m.callers i m'.frame m'.callers
  | .halt _ m' _ | .fault _ m' _ => m'.stack.length ≤ Machine.stackLimit ∧ m'.frame = m.frame ∧
      m'.callers = m.callers
  | .broken how host' => host' = host ∧
      (how = .emptyStack ∧ m.stack.length < i.pops ∨
        how = .invokeWithoutTable ∧ i = .invoke ∧ ∃ handle rest, m.stack = handle :: rest ∧
          ¬ (0 ≤ handle.toInt ∧ handle.toInt < code.procedures.size) ∧ m.table = none)

/-- A step that keeps the frame and its callers fits every instruction. -/
theorem Step.Rests.fits {σ : Type} {code : Bytecode} {m : Machine} {host : σ} {i : Instruction}
    {step : Step σ} (h : step.Rests m.frame m.callers) : step.Fits code m host i := by
  cases step with
  | next m' host' =>
    obtain ⟨low, frame, callers⟩ := h
    refine ⟨low, ?_⟩
    rw [frame, callers]
    exact .stays i
  | fault cause m' host' => exact h
  | halt _ _ _ | broken _ _ => exact h.elim

namespace Machine

variable {σ : Type} {code : Bytecode} {m : Machine} {host : σ}

/-- A push keeps the frame and its callers, also when the stack is full. -/
theorem push_rests (low : m.stack.length ≤ stackLimit) (value : Int32) :
    (m.push value host).Rests m.frame m.callers := by
  unfold push
  split
  · next room => exact ⟨room, rfl, rfl⟩
  · exact ⟨low, rfl, rfl⟩

/-- Reading a cell keeps the frame and its callers, also outside the tape. -/
theorem loadCell_rests (low : m.stack.length ≤ stackLimit) (index : Int32) :
    (m.loadCell index host).Rests m.frame m.callers := by
  unfold loadCell
  split
  · exact push_rests low _
  · exact ⟨low, rfl, rfl⟩

/-- Changing a cell keeps the frame and its callers, also outside the tape. -/
theorem storeCell_rests (low : m.stack.length ≤ stackLimit) (index value : Int32) :
    (m.storeCell index value host).Rests m.frame m.callers := by
  unfold storeCell
  split
  · exact ⟨low, rfl, rfl⟩
  · exact ⟨low, rfl, rfl⟩

/-- Binding a key keeps the frame and its callers, with or without a table. -/
theorem bind_rests (low : m.stack.length ≤ stackLimit) (key : Int32) (handle : Handle) :
    (m.bind key handle host).Rests m.frame m.callers := by
  unfold bind
  split
  · exact ⟨low, rfl, rfl⟩
  · split
    · exact ⟨low, rfl, rfl⟩
    · exact ⟨low, rfl, rfl⟩

/-- Looking a key up keeps the frame and its callers, with or without a table. -/
theorem find_rests (low : m.stack.length ≤ stackLimit) (key : Int32) :
    (m.find key host).Rests m.frame m.callers := by
  unfold find
  split
  · exact ⟨low, rfl, rfl⟩
  · exact push_rests (m := { m with lastKey := key }) low _

variable [Host σ]

/-- An instruction that takes more than there is breaks the machine. -/
theorem execute_of_short {i : Instruction} (short : m.stack.length < i.pops) :
    m.execute code host i = .broken .emptyStack host := by
  cases i with
  | newTape | newTable | loadPointer | loadScratch | constant | read | loop | procedure | leave =>
    exact absurd short (Nat.not_lt_zero _)
  | storePointer | storeScratch | loadCell | write | jumpZero | lookup | invoke | returnValue =>
    have none : m.stack = [] := List.eq_nil_of_length_eq_zero (Nat.lt_one_iff.1 short)
    simp only [execute, none]
  | storeCell | add | sub | register =>
    rcases stack : m.stack with _ | ⟨b, _ | ⟨a, rest⟩⟩
    · simp only [execute, stack]
    · simp only [execute, stack]
    · rw [stack] at short
      have few : rest.length + 2 < 2 := short
      omega

/-- An instruction keeps to the limits, or breaks the machine where it finds too little on the
stack, or no procedure and no table. -/
theorem execute_fits (low : m.stack.length ≤ stackLimit) (i : Instruction) :
    (m.execute code host i).Fits code m host i := by
  by_cases short : m.stack.length < i.pops
  · rw [execute_of_short short]
    exact ⟨rfl, .inl ⟨rfl, short⟩⟩
  have enough : i.pops ≤ m.stack.length := Nat.le_of_not_lt short
  -- Otherwise the values are there, and taking them leaves the stack below its limit.
  have below {stack : List Int32} (fewer : stack.length < m.stack.length) :
      stack.length ≤ stackLimit :=
    Nat.le_trans (Nat.le_of_lt fewer) low
  cases i with
  | newTape | newTable => exact ⟨low, .stays _⟩
  | constant | loadPointer | loadScratch | procedure => exact (push_rests low _).fits
  | loop distance => exact ⟨low, .loops distance⟩
  | read =>
    simp only [execute]
    split
    · exact (push_rests low _).fits
    · exact ⟨low, rfl, rfl⟩
  | leave =>
    simp only [execute]
    cases callers : m.callers with
    | nil => exact ⟨low, rfl, rfl⟩
    | cons caller rest => exact ⟨low, .leaves callers⟩
  | storePointer | storeScratch =>
    obtain ⟨value, stack, top⟩ := List.exists_cons_of_length_pos enough
    simp only [execute, top]
    exact ⟨below (by simp [top]), .stays _⟩
  | loadCell =>
    obtain ⟨index, stack, top⟩ := List.exists_cons_of_length_pos enough
    simp only [execute, top]
    apply Step.Rests.fits
    exact loadCell_rests (m := { m with stack := stack }) (below (by simp [top])) index
  | storeCell =>
    obtain ⟨value, index, stack, top⟩ := exists_cons_cons enough
    simp only [execute, top]
    apply Step.Rests.fits
    exact storeCell_rests (m := { m with stack := stack }) (below (by simp [top])) index value
  | add | sub =>
    obtain ⟨b, a, stack, top⟩ := exists_cons_cons enough
    simp only [execute, top]
    apply Step.Rests.fits
    exact push_rests (m := { m with stack := stack }) (below (by simp [top])) _
  | write =>
    obtain ⟨value, stack, top⟩ := List.exists_cons_of_length_pos enough
    simp only [execute, top]
    split
    · exact ⟨below (by simp [top]), .stays _⟩
    · exact ⟨below (by simp [top]), rfl, rfl⟩
  | jumpZero target =>
    obtain ⟨value, stack, top⟩ := List.exists_cons_of_length_pos enough
    simp only [execute, top]
    split
    · exact ⟨below (by simp [top, setIp]), .jumps target⟩
    · exact ⟨below (by simp [top]), .stays _⟩
  | register =>
    obtain ⟨handle, key, stack, top⟩ := exists_cons_cons enough
    simp only [execute, top]
    apply Step.Rests.fits
    exact bind_rests (m := { m with stack := stack }) (below (by simp [top])) key _
  | lookup =>
    obtain ⟨key, stack, top⟩ := List.exists_cons_of_length_pos enough
    simp only [execute, top]
    apply Step.Rests.fits
    exact find_rests (m := { m with stack := stack }) (below (by simp [top])) key
  | invoke =>
    obtain ⟨handle, stack, top⟩ := List.exists_cons_of_length_pos enough
    have low' : stack.length ≤ stackLimit := below (by simp [top])
    simp only [execute, top, invoke]
    split
    · next known =>
      unfold call
      split
      · next room => exact ⟨low', .calls (by omega) room⟩
      · exact ⟨low', rfl, rfl⟩
    · next unknown =>
      split
      · next none => exact ⟨rfl, .inr ⟨rfl, rfl, handle, stack, top, unknown, none⟩⟩
      · exact ⟨low', rfl, rfl⟩
  | returnValue =>
    obtain ⟨value, stack, top⟩ := List.exists_cons_of_length_pos enough
    simp only [execute, top]
    exact ⟨below (by simp [top]), rfl, rfl⟩

/-- A step breaks the machine where a breakdown occurs, and nowhere else, and leaves the host
alone. -/
theorem step_broken_iff (low : m.stack.length ≤ stackLimit) {how : Breakdown} {host' : σ} :
    m.step code host = .broken how host' ↔ how.Occurs code m ∧ host' = host := by
  constructor
  · intro broken
    rw [step_eq_of_fetch] at broken
    cases found : m.fetch code with
    | before =>
      rw [found] at broken
      cases broken
      exact ⟨fetch_eq_iff.1 found, rfl⟩
    | ended | unknown _ _ =>
      rw [found] at broken
      cases broken
    | cut op position =>
      rw [found] at broken
      cases broken
      exact ⟨⟨op, position, fetch_eq_iff.1 found⟩, rfl⟩
    | instruction i position =>
      rw [found] at broken
      have fits : Step.Fits code _ host i _ :=
        execute_fits (m := m.setIp (lastByte position i.opcode)) low i
      rw [show (m.setIp (lastByte position i.opcode)).execute code host i = _ from broken] at fits
      obtain ⟨rfl, ⟨rfl, short⟩ | ⟨rfl, rfl, handle, rest, top, unknown, none⟩⟩ := fits
      · exact ⟨⟨i, position, found, short⟩, rfl⟩
      · exact ⟨⟨position, handle, rest, found, top, unknown, none⟩, rfl⟩
  · rintro ⟨occurs, rfl⟩
    rw [step_eq_of_fetch]
    cases how with
    | emptyStack =>
      obtain ⟨i, position, found, short⟩ := occurs
      rw [found]
      exact execute_of_short short
    | operandPastEnd =>
      obtain ⟨op, position, there⟩ := occurs
      rw [fetch_eq_iff.2 (show Fetched.Stands _ _ (.cut op position) from there)]
    | negativePosition =>
      rw [fetch_eq_iff.2 (show Fetched.Stands _ _ .before from occurs)]
    | invokeWithoutTable =>
      obtain ⟨position, handle, rest, found, top, unknown, none⟩ := occurs
      rw [found]
      simp only [execute, setIp, top, invoke, if_neg unknown, none]

end Machine

/-! ## Frames in a line -/

/-- Frames of procedures, one called by the next, and the main unit at the end. -/
def Frame.Chain (code : Bytecode) : Frame → List Frame → Prop
  | f, [] => f.unit = none
  | f, c :: rest => (∃ id < code.procedures.size, f.unit = some id) ∧ Chain code c rest

/-- The frames of a machine: no more than the limit, in a chain, and those that wait have consumed a
call. -/
structure Frame.Lined (code : Bytecode) (frame : Frame) (callers : List Frame) : Prop where
  depth : callers.length + 1 ≤ Fault.maxFrames
  chain : Chain code frame callers
  waiting : ∀ c ∈ callers, 0 ≤ c.ip

namespace Frame

variable {code : Bytecode} {frame frame' : Frame} {callers callers' : List Frame} {i : Instruction}

/-- Where a frame stands does not matter to the chain. -/
theorem Chain.move (h : Chain code frame callers) (same : frame'.unit = frame.unit) :
    Chain code frame' callers := by
  cases callers with
  | nil =>
    show frame'.unit = none
    rw [same]
    exact h
  | cons c rest =>
    show (∃ id < code.procedures.size, frame'.unit = some id) ∧ Chain code c rest
    rw [same]
    exact h

/-- The main unit is outermost, and all other frames are procedures of the code. -/
theorem Chain.exists_outer (h : Chain code frame callers) :
    ∃ inner outer, frame :: callers = inner ++ [outer] ∧ outer.unit = none ∧
      ∀ f ∈ inner, ∃ id < code.procedures.size, f.unit = some id := by
  induction callers generalizing frame with
  | nil => exact ⟨[], frame, rfl, h, nofun⟩
  | cons c rest ih =>
    obtain ⟨inner, outer, same, main, known⟩ := ih h.2
    refine ⟨frame :: inner, outer, congrArg (frame :: ·) same, main, ?_⟩
    intro f member
    rcases List.mem_cons.1 member with rfl | inside
    · exact h.1
    · exact known f inside

/-- Frames are in a line wherever the innermost one stands in its unit. -/
theorem Lined.move (h : Lined code frame callers) (same : frame'.unit = frame.unit) :
    Lined code frame' callers :=
  ⟨h.depth, h.chain.move same, h.waiting⟩

/-- Frames stay in a line, and the one that runs stands in its unit or right before it, but perhaps
after a jump back. -/
theorem Turns.lined (turns : Turns code frame callers i frame' callers')
    (h : Lined code frame callers) (here : 0 ≤ frame.ip) :
    Lined code frame' callers' ∧
      (-1 ≤ frame'.ip ∨
        ∃ distance, i = .loop distance ∧ frame'.ip = frame.ip - (distance.toNat + 1)) := by
  cases turns with
  | stays => exact ⟨h, .inl (by omega)⟩
  | jumps target =>
    refine ⟨h.move rfl, .inl ?_⟩
    show (-1 : Int) ≤ target.toNat - 1
    omega
  | loops distance => exact ⟨h.move rfl, .inr ⟨distance, rfl, rfl⟩⟩
  | calls known room =>
    refine ⟨⟨room, ⟨⟨_, known, rfl⟩, h.chain⟩, ?_⟩, .inl (Int.le_refl _)⟩
    intro c member
    rcases List.mem_cons.1 member with rfl | before
    · exact here
    · exact h.waiting c before
  | leaves same =>
    subst same
    have caller := h.waiting frame' List.mem_cons_self
    refine ⟨⟨Nat.le_of_succ_le h.depth, h.chain.2, ?_⟩, .inl (by omega)⟩
    intro c member
    exact h.waiting c (List.mem_cons_of_mem _ member)

end Frame

/-! ## Steps and runs keep the bounds -/

/-- A machine in its bounds. -/
structure Machine.Bounded (code : Bytecode) (m : Machine) : Prop where
  stack : m.stack.length ≤ stackLimit
  frames : Frame.Lined code m.frame m.callers

/-- What a step keeps: the bounds, and that the machine does not stand before its unit, but perhaps
after a jump back that leads too far. -/
def Step.Bounds {σ : Type} (code : Bytecode) (m : Machine) : Step σ → Prop
  | .next m' _ => m'.Bounded code ∧ (-1 ≤ m'.frame.ip ∨
      ∃ distance position, m.fetch code = .instruction (.loop distance) position ∧
        position < distance.toNat)
  | .halt _ m' _ | .fault _ m' _ => m'.Bounded code ∧ -1 ≤ m'.frame.ip
  | .broken .. => True

namespace Machine

variable {σ : Type} {code : Bytecode} {m m' : Machine} {host host' : σ}

/-- A new machine is within its bounds. -/
theorem bounded_new (code : Bytecode) : ({} : Machine).Bounded code :=
  ⟨Nat.zero_le _, by decide, rfl, nofun⟩

theorem lastByte_nonneg (position : Nat) (op : Opcode) : 0 ≤ lastByte position op := by
  cases op <;> exact Int.natCast_nonneg _

variable [Host σ]

/-- A step keeps the machine within its bounds, for any bytes. -/
theorem Bounded.step (h : m.Bounded code) (host : σ) : (m.step code host).Bounds code m := by
  have stands := stands_fetch m code
  rw [step_eq_of_fetch]
  cases found : m.fetch code with
  | before | cut _ _ => trivial
  | ended =>
    rw [found] at stands
    obtain ⟨position, place, -⟩ := stands
    exact ⟨h, by omega⟩
  | unknown b position =>
    refine ⟨⟨h.stack, h.frames.move rfl⟩, ?_⟩
    show -1 ≤ (position : Int)
    omega
  | instruction i position =>
    -- The frame is first moved to the last byte of the instruction. So a caller that is left
    -- waiting stands in its unit, and so does a frame that stops there.
    have here := lastByte_nonneg position i.opcode
    have fits : Step.Fits code _ host i _ :=
      execute_fits (m := m.setIp (lastByte position i.opcode)) h.stack i
    have lined : Frame.Lined code (m.setIp (lastByte position i.opcode)).frame m.callers :=
      h.frames.move rfl
    dsimp only
    cases done : (m.setIp (lastByte position i.opcode)).execute code host i with
    | next m' host' =>
      rw [done] at fits
      obtain ⟨low, turns⟩ := fits
      obtain ⟨lined', place⟩ := turns.lined lined here
      refine ⟨⟨low, lined'⟩, ?_⟩
      rcases place with inside | ⟨distance, rfl, back⟩
      · exact .inl inside
      · by_cases far : position < distance.toNat
        · exact .inr ⟨distance, position, found, far⟩
        · left
          have place : m'.frame.ip = (position : Int) - (distance.toNat + 1) := back
          omega
    | halt result m' host' | fault cause m' host' =>
      rw [done] at fits
      obtain ⟨low, frame, callers⟩ := fits
      refine ⟨⟨low, ?_⟩, ?_⟩
      · rw [frame, callers]
        exact lined
      · rw [frame]
        show -1 ≤ lastByte position i.opcode
        omega
    | broken how host' => trivial

/-- Any number of steps keep the machine within its bounds. -/
theorem Bounded.of_reaches {n : Nat} {c d : Machine × σ} (reached : Reaches code n c d)
    (h : c.1.Bounded code) : d.1.Bounded code := by
  induction reached with
  | refl => exact h
  | @head n m m' host host' e stepped _ ih =>
    have kept := Bounded.step h host
    rw [stepped] at kept
    exact ih kept.1

/-- Sending on what was written does not change the machine. -/
theorem eq_of_finish {report report' : Report}
    (ended : m.finish report host = .done report' m' host') : m = m' := by
  unfold finish at ended
  split at ended
  · cases ended
    rfl
  · cases ended
    rfl

/-- A run that ends leaves a machine in its bounds that does not stand before its unit. -/
theorem Bounded.run (h : m.Bounded code) {limit : Nat} {report : Report}
    (ended : m.run code limit host = .done report m' host') :
    m'.Bounded code ∧ -1 ≤ m'.frame.ip := by
  have last {step : Step σ} (done : (steps code limit m host).last? = some step) :
      ∃ d, Step.Bounds code d step := by
    obtain ⟨n, d, left, reached, rfl⟩ := reaches_of_steps done
    exact ⟨d, (h.of_reaches reached).step left⟩
  unfold Machine.run at ended
  cases stopped : steps code limit m host with
  | halt result m'' host'' | fault cause m'' host'' =>
    rw [stopped] at ended last
    obtain ⟨d, bounds⟩ := last rfl
    obtain rfl := eq_of_finish ended
    exact bounds
  | broken _ _ | unfinished =>
    rw [stopped] at ended
    cases ended

/-- The states of a machine and its host before each step, when code is run on a new machine any
number of times. What becomes of the host between two runs is left open. -/
inductive Active (code : Bytecode) : Machine → σ → Prop
  | new (host : σ) : Active code {} host
  | step {m m' : Machine} {host host' : σ} :
      Active code m host → m.step code host = .next m' host' → Active code m' host'
  | again {m m' : Machine} {limit : Nat} {report : Report} {host host' : σ} (between : σ) :
      Active code m host → m.run code limit host = .done report m' host' → Active code m' between

/-- An active machine is within its bounds. -/
theorem Active.bounded (active : Active code m host) : m.Bounded code := by
  induction active with
  | new host => exact bounded_new code
  | @step m m' host host' _ stepped ih =>
    have kept := ih.step host
    rw [stepped] at kept
    exact kept.1
  | again between _ ended ih => exact (ih.run ended).1

/-- A machine stands before its unit only right after a jump back that leads too far. -/
theorem Active.exists_loop (active : Active code m host) (before : m.frame.ip + 1 < 0) :
    ∃ m₀ host₀ distance position, Active code m₀ host₀ ∧ m₀.step code host₀ = .next m host ∧
      m₀.fetch code = .instruction (.loop distance) position ∧ position < distance.toNat := by
  cases active with
  | new host => exact absurd before (by decide)
  | @step m₀ m' host₀ host' earlier stepped =>
    have kept := earlier.bounded.step host₀
    rw [stepped] at kept
    rcases kept.2 with inside | ⟨distance, position, found, far⟩
    · omega
    · exact ⟨m₀, host₀, distance, position, earlier, stepped, found, far⟩
  | again between earlier ended =>
    -- A run that has ended did so at a byte it had consumed, or at the end of its unit.
    have inside := (earlier.bounded.run ended).2
    omega

end Machine

/-! ## Cells -/

/-- Whether an instruction uses the tape. -/
def Instruction.usesTape : Instruction → Bool
  | newTape _ | loadCell | storeCell => true
  | _ => false

namespace Machine

variable {σ : Type} {code : Bytecode} {m : Machine} {host : σ}

/-- The machine with another tape. -/
def withTape (m : Machine) (tape : Array Int32) : Machine :=
  { m with tape := tape }

/-- An index is that of a cell if it is on the tape. -/
theorem cell?_cases (m : Machine) (index : Int32) :
    (∃ i : Fin m.tape.size, 0 ≤ index.toInt ∧ index.toInt.toNat = i ∧ m.cell? index = some i) ∨
      ¬ (0 ≤ index.toInt ∧ index.toInt < m.tape.size) ∧ m.cell? index = none := by
  by_cases inside : 0 ≤ index.toInt ∧ index.toInt.toNat < m.tape.size
  · exact .inl ⟨⟨_, inside.2⟩, inside.1, rfl, by simp only [cell?, dif_pos inside]⟩
  · refine .inr ⟨?_, by simp only [cell?, dif_neg inside]⟩
    intro there
    apply inside
    omega

/-- A push does the same with any tape. -/
theorem push_withTape (m : Machine) (value : Int32) (host : σ) (tape : Array Int32) :
    (m.withTape tape).push value host = (m.push value host).map (·.withTape tape) := by
  have same : (m.withTape tape).stack = m.stack := rfl
  unfold push
  rw [same]
  split
  · rfl
  · rfl

/-- Binding a key does the same with any tape. -/
theorem bind_withTape (m : Machine) (key : Int32) (handle : Handle) (host : σ)
    (tape : Array Int32) :
    (m.withTape tape).bind key handle host = (m.bind key handle host).map (·.withTape tape) := by
  have same : (m.withTape tape).table = m.table := rfl
  unfold bind
  rw [same]
  split
  · rfl
  · split
    · rfl
    · rfl

/-- Looking a key up does the same with any tape. -/
theorem find_withTape (m : Machine) (key : Int32) (host : σ) (tape : Array Int32) :
    (m.withTape tape).find key host = (m.find key host).map (·.withTape tape) := by
  have same : (m.withTape tape).table = m.table := rfl
  unfold find
  rw [same]
  split
  · rfl
  · exact push_withTape { m with lastKey := key } _ host tape

/-- Calling a procedure does the same with any tape. -/
theorem invoke_withTape (m : Machine) (procedures : Nat) (handle : Int32) (host : σ)
    (tape : Array Int32) :
    (m.withTape tape).invoke procedures handle host =
      (m.invoke procedures handle host).map (·.withTape tape) := by
  have table : (m.withTape tape).table = m.table := rfl
  have depth : (m.withTape tape).depth = m.depth := rfl
  unfold invoke call
  rw [table, depth]
  split
  · split
    · rfl
    · rfl
  · split
    · rfl
    · rfl

variable [Host σ]

/-- An instruction that does not use the tape does the same with any tape, and leaves it. -/
theorem execute_withTape {i : Instruction} (other : i.usesTape = false) (m : Machine) (host : σ)
    (tape : Array Int32) :
    (m.withTape tape).execute code host i = (m.execute code host i).map (·.withTape tape) := by
  have stack : (m.withTape tape).stack = m.stack := rfl
  have callers : (m.withTape tape).callers = m.callers := rfl
  cases i with
  | newTape | loadCell | storeCell => cases other
  | newTable | loop => rfl
  | constant | loadPointer | loadScratch | procedure => exact push_withTape m _ host tape
  | storePointer | storeScratch | returnValue =>
    simp only [execute, stack]
    cases m.stack <;> rfl
  | jumpZero =>
    simp only [execute, stack]
    cases m.stack with
    | nil => rfl
    | cons value rest =>
      dsimp only
      split <;> rfl
  | leave =>
    simp only [execute, callers]
    cases m.callers <;> rfl
  | add | sub =>
    simp only [execute, stack]
    rcases m.stack with _ | ⟨b, _ | ⟨a, rest⟩⟩
    · rfl
    · rfl
    · exact push_withTape { m with stack := rest } _ host tape
  | read =>
    simp only [execute]
    rcases Host.read host with ⟨_ | value, host'⟩
    · rfl
    · exact push_withTape m value host' tape
  | write =>
    simp only [execute, stack]
    cases m.stack with
    | nil => rfl
    | cons value rest =>
      dsimp only
      rcases Host.write value host with ⟨_ | _, host'⟩ <;> rfl
  | register =>
    simp only [execute, stack]
    rcases m.stack with _ | ⟨handle, _ | ⟨key, rest⟩⟩
    · rfl
    · rfl
    · exact bind_withTape { m with stack := rest } key _ host tape
  | lookup =>
    simp only [execute, stack]
    cases m.stack with
    | nil => rfl
    | cons key rest => exact find_withTape { m with stack := rest } key host tape
  | invoke =>
    simp only [execute, stack]
    cases m.stack with
    | nil => rfl
    | cons handle rest => exact invoke_withTape { m with stack := rest } _ handle host tape

/-- A step that fetches no instruction for the tape neither reads nor changes it. -/
theorem step_withTape
    (other : ∀ i position, m.fetch code = .instruction i position → i.usesTape = false) (host : σ)
    (tape : Array Int32) :
    (m.withTape tape).step code host = (m.step code host).map (·.withTape tape) := by
  have same : (m.withTape tape).fetch code = m.fetch code := rfl
  rw [step_eq_of_fetch, step_eq_of_fetch, same]
  cases found : m.fetch code with
  | before | ended | unknown _ _ | cut _ _ => rfl
  | instruction i position =>
    exact execute_withTape (other i position found) (m.setIp (lastByte position i.opcode)) host tape

/-- A cell is read only where there is one. -/
theorem step_of_loadCell {position : Nat} {index : Int32} {rest : List Int32}
    (found : m.fetch code = .instruction .loadCell position) (top : m.stack = index :: rest)
    (host : σ) :
    (∃ value, 0 ≤ index.toInt ∧ m.tape[index.toInt.toNat]? = some value ∧
      m.step code host = ({ m.setIp position with stack := rest } : Machine).push value host) ∨
    ¬ (0 ≤ index.toInt ∧ index.toInt < m.tape.size) ∧
      m.step code host =
        .fault (.tapeBounds index m.tape.size) { m.setIp position with stack := rest } host := by
  have step : m.step code host =
      ({ m.setIp position with stack := rest } : Machine).loadCell index host := by
    rw [step_eq_of_fetch, found]
    simp only [execute, setIp, top]
    rfl
  have cell : ({ m.setIp position with stack := rest } : Machine).cell? index = m.cell? index := rfl
  rw [step, loadCell, cell]
  rcases m.cell?_cases index with ⟨i, positive, same, inside⟩ | ⟨outside, none⟩
  · refine .inl ⟨m.tape[i], positive, ?_, ?_⟩
    · rw [same]
      exact Array.getElem?_eq_getElem i.isLt
    · rw [inside]
      rfl
  · refine .inr ⟨outside, ?_⟩
    rw [none]
    rfl

/-- A cell is changed only where there is one. -/
theorem step_of_storeCell {position : Nat} {value index : Int32} {rest : List Int32}
    (found : m.fetch code = .instruction .storeCell position)
    (top : m.stack = value :: index :: rest) (host : σ) :
    (0 ≤ index.toInt ∧ index.toInt < m.tape.size ∧
      m.step code host = .next { m.setIp position with
        stack := rest, tape := m.tape.setIfInBounds index.toInt.toNat value } host) ∨
    ¬ (0 ≤ index.toInt ∧ index.toInt < m.tape.size) ∧
      m.step code host =
        .fault (.tapeBounds index m.tape.size) { m.setIp position with stack := rest } host := by
  have step : m.step code host =
      ({ m.setIp position with stack := rest } : Machine).storeCell index value host := by
    rw [step_eq_of_fetch, found]
    simp only [execute, setIp, top]
    rfl
  have cell : ({ m.setIp position with stack := rest } : Machine).cell? index = m.cell? index := rfl
  rw [step, storeCell, cell]
  rcases m.cell?_cases index with ⟨i, positive, same, inside⟩ | ⟨outside, none⟩
  · have there := i.isLt
    have written : m.tape.setIfInBounds index.toInt.toNat value = m.tape.set i value := by
      rw [same, Array.setIfInBounds, dif_pos there]
    refine .inl ⟨positive, by omega, ?_⟩
    rw [inside, written]
    rfl
  · refine .inr ⟨outside, ?_⟩
    rw [none]
    rfl

/-! ## Containment -/

/-- A machine that any code has brought to a state is in its bounds there, and its next step stays
in them. -/
structure Contained (code : Bytecode) (m : Machine) (host : σ) : Prop where
  stack : m.stack.length ≤ 2048
  depth : 1 ≤ m.depth ∧ m.depth ≤ 1024
  /-- The outermost frame has the code of the main unit, and every other one that of a procedure. -/
  frames : ∃ inner outer, m.frame :: m.callers = inner ++ [outer] ∧
    outer.unit = none ∧ code.unit outer.unit = code.main ∧
    ∀ f ∈ inner, ∃ id procedure, f.unit = some id ∧ code.procedures[id]? = some procedure ∧
      code.unit f.unit = procedure
  /-- A cell is read only inside the tape. -/
  loads : ∀ position index rest, m.fetch code = .instruction .loadCell position →
    m.stack = index :: rest →
    (∃ value, 0 ≤ index.toInt ∧ m.tape[index.toInt.toNat]? = some value ∧
      m.step code host = ({ m.setIp position with stack := rest } : Machine).push value host) ∨
    ¬ (0 ≤ index.toInt ∧ index.toInt < m.tape.size) ∧
      m.step code host =
        .fault (.tapeBounds index m.tape.size) { m.setIp position with stack := rest } host
  /-- A cell is changed only inside the tape. -/
  stores : ∀ position value index rest, m.fetch code = .instruction .storeCell position →
    m.stack = value :: index :: rest →
    (0 ≤ index.toInt ∧ index.toInt < m.tape.size ∧
      m.step code host = .next { m.setIp position with
        stack := rest, tape := m.tape.setIfInBounds index.toInt.toNat value } host) ∨
    ¬ (0 ≤ index.toInt ∧ index.toInt < m.tape.size) ∧
      m.step code host =
        .fault (.tapeBounds index m.tape.size) { m.setIp position with stack := rest } host
  /-- No other step uses the tape, but for one that makes a new tape. -/
  others : (∀ i position, m.fetch code = .instruction i position → i.usesTape = false) → ∀ tape,
    (m.withTape tape).step code host = (m.step code host).map (·.withTape tape)
  /-- A step breaks the machine exactly where a breakdown occurs. -/
  broken : ∀ how host', m.step code host = .broken how host' ↔ how.Occurs code m ∧ host' = host
  /-- The machine stands before its unit only after a jump back that leads too far. -/
  before : m.frame.ip + 1 < 0 → ∃ m₀ host₀ distance position, Active code m₀ host₀ ∧
    m₀.step code host₀ = .next m host ∧ m₀.fetch code = .instruction (.loop distance) position ∧
    position < distance.toNat

/-- **Any code is contained.** Whatever the bytes of the units are, in front of every host, and
however many times the machine is run: before each step the operand stack and the frames are in
their bounds, and the frames are those of procedures with the main unit outermost; cells are used
only on the tape; and a step breaks the machine only by taking a value from an empty stack, by an
operand that runs past the end of its unit, before the unit after a jump back, or by a call of what
is no procedure while there is no table. -/
theorem Active.contained (active : Active code m host) : m.Contained code host := by
  have bounded := active.bounded
  refine ⟨bounded.stack, ⟨Nat.le_add_left 1 _, bounded.frames.depth⟩, ?_, ?_, ?_, ?_, ?_,
    active.exists_loop⟩
  · obtain ⟨inner, outer, same, main, known⟩ := bounded.frames.chain.exists_outer
    refine ⟨inner, outer, same, main, ?_, ?_⟩
    · rw [main]
      rfl
    · intro f member
      obtain ⟨id, inside, unit⟩ := known f member
      have found := Array.getElem?_eq_getElem inside
      refine ⟨id, _, unit, found, ?_⟩
      rw [unit, Bytecode.unit, found]
      rfl
  · intro position index rest found top
    exact step_of_loadCell found top host
  · intro position value index rest found top
    exact step_of_storeCell found top host
  · intro other tape
    exact step_withTape other host tape
  · intro how host'
    exact step_broken_iff bounded.stack

/-- A jump back by five bytes from the first byte leads before the unit, where the next step breaks
the machine. -/
theorem Active.contained_of_loop :
    let code : Bytecode := { main := #[14, 0, 0, 0, 5], procedures := #[] }
    let m : Machine := { frame := { ip := -6 } }
    Active code m Host.Silent.silent ∧ m.Contained code Host.Silent.silent ∧
      m.step code Host.Silent.silent = .broken .negativePosition .silent := by
  intro code m
  have found : ({} : Machine).fetch code = .instruction (.loop 5) 0 := by decide +kernel
  have looped : ({} : Machine).step code Host.Silent.silent = .next m .silent := by
    rw [step_eq_of_fetch, found]
    rfl
  have active : Active code m Host.Silent.silent := .step (.new .silent) looped
  have contained := active.contained
  refine ⟨active, contained, (contained.broken _ _).2 ⟨?_, rfl⟩⟩
  show (-6 : Int) + 1 < 0
  decide

end Machine

end TapeLang
