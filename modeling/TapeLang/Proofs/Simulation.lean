/-
# Compiled programs do what they mean

The code of nodes, standing at the offset for which it was made, takes a machine from the store
before the nodes to the store after them, with the operand stack and the waiting frames as they
were. If the nodes fail, the machine stops with the same fault and the same store; and as long as
evaluation lacks fuel, the machine goes on for at least as many steps as there was fuel. This is
`Program.follows_evalAll`, an induction over the evaluation, with a lemma for each way in which code
leaves its line: the test of a loop, the way back, a call and its return.

As the machine is deterministic, a compiled program therefore has exactly the behaviours of its
tree: `Program.compile_correct`.
-/
import TapeLang.Proofs.Block
import TapeLang.Proofs.Units

namespace TapeLang

/-! ## Loops -/

namespace Machine

variable {σ : Type} [Host σ] {code : Bytecode} {unit : Option Nat} {base : Nat}
  {s : Store} {callers : List Frame} {host : σ}

theorem toNat_position (short : code.Short) (unit : Option Nat) {position : Nat}
    (inside : position ≤ (code.unit unit).size) : position.toUInt32.toNat = position := by
  have := short.unit_lt unit
  simp only [Nat.toUInt32_eq, UInt32.toNat_ofNat']
  omega

variable {inner : List Instruction}

/-- The body of a loop stands seven bytes behind the beginning of the loop. -/
theorem has_body (here : code.Has unit base (Node.around base inner)) :
    code.Has unit (base + 7) inner :=
  Bytecode.Has.right (Bytecode.Has.left here)

/-- The test of a loop goes on with the body, or after the loop if the cell is zero. -/
theorem reaches_loopTest (callers : List Frame) (host : σ) (short : code.Short)
    (here : code.Has unit base (Node.around base inner)) {i : Fin 30000}
    (found : s.position? = some i) :
    Reaches code 3 ((s.machine [] callers).stand unit base, host)
      ((s.machine [] callers).stand unit
        (if s.cell i = 0 then base + (7 + Instruction.span inner + 5) else base + 7), host) := by
  -- The end of the loop is inside the unit, so its position fits the operand of the jump.
  have target : (base + 7 + Instruction.span inner + 5).toUInt32.toNat =
      base + (7 + Instruction.span inner + 5) := by
    have inside := here.le_size
    rw [Node.span_around] at inside
    rw [toNat_position short unit (by omega)]
    omega
  have load : executeAll code [.loadPointer, .loadCell] (s.machine [] callers) host =
      .next (s.machine [s.cell i] callers) host :=
    executeAll_load found (by simp [stackLimit])
  have test := Bytecode.Has.left (Bytecode.Has.left here)
  have first := reaches_of_executeAll (Bytecode.Has.left (a := [.loadPointer, .loadCell]) test)
    (by decide) load
  have jump := step_of_has (Bytecode.Has.right (a := [.loadPointer, .loadCell]) test)
    (by simp [Instruction.opcode]) (s.machine [s.cell i] callers) host
  refine first.trans (.single (jump.trans ?_))
  rw [← target]
  show Step.next (if s.cell i = 0 then _ else _) host = _
  split <;> rfl

/-- The way back of a loop. -/
theorem reaches_loopBack (short : code.Short) (here : code.Has unit base (Node.around base inner))
    (m : Machine) :
    Reaches code 1 (m.stand unit (base + 7 + Instruction.span inner), host)
      (m.stand unit base, host) := by
  have distance : (7 + Instruction.span inner).toUInt32.toNat = 7 + Instruction.span inner := by
    have inside := here.le_size
    rw [Node.span_around] at inside
    exact toNat_position short unit (by omega)
  have last : code.Has unit (base + 7 + Instruction.span inner)
      [.loop (7 + Instruction.span inner).toUInt32] := by
    have right := Bytecode.Has.right here
    rwa [Instruction.span_append, ← Nat.add_assoc] at right
  have back := step_of_has_loop last (by omega) m host
  rw [distance, show base + 7 + Instruction.span inner - (7 + Instruction.span inner) =
    base by omega]
    at back
  exact .single back

/-! ## Calls -/

/-- The handle that a lookup leaves on the stack is the bound one. -/
theorem toInt_lookup {r : Registry} {key : Int32} {handle : Handle}
    (found : r.table.find? key = some handle) :
    (Int32.ofInt (r.table.lookup key).id).toInt = handle.id := by
  have fits := r.fits key handle found
  rw [Table.lookup, found, Option.getD_some, Int32.toInt_ofInt]
  exact Int.bmod_eq_of_le (by simp only [Int32.size]; omega) (by simp only [Int32.size]; omega)

omit [Host σ] in
theorem find_of_table {m : Machine} {table : Table} (h : m.table = some table) (key : Int32) :
    m.find key host = { m with lastKey := key }.push (Int32.ofInt (table.lookup key).id) host := by
  rw [find, h]

/-- The code of a call looks the key of the current cell up before it enters a procedure. -/
theorem executeAll_lookup {r : Registry} {i : Fin 30000} (found : s.position? = some i)
    (registry : s.registry = some r) :
    executeAll code [.loadPointer, .loadCell, .lookup] (s.machine [] callers) host =
      .next ({ s with lastKey := s.cell i }.machine
        [Int32.ofInt (r.table.lookup (s.cell i)).id] callers) host := by
  have room : ([] : List Int32).length < stackLimit := by simp [stackLimit]
  have table : (s.machine [] callers).table = some r.table := by simp [Store.machine, registry]
  rw [executeAll_load found room]
  refine (executeAll_of_next ?_).trans rfl
  show (s.machine [] callers).find (s.cell i) host = _
  rw [find_of_table table]
  exact Store.push_machine (s := { s with lastKey := s.cell i }) room _ host

omit [Host σ] in
/-- A call whose value is bound to a procedure stands at the beginning of its unit, unless too many
units are active. -/
theorem invoke_of_find {procedures : List Procedure} {r : Registry} {key : Int32} {handle : Handle}
    {q : Procedure} (found : r.table.find? key = some handle)
    (there : procedures[handle.id.toNat]? = some q) (m : Machine) :
    m.invoke procedures.length (Int32.ofInt (r.table.lookup key).id) host =
      m.call handle.id.toNat host := by
  have fits := r.fits key handle found
  have inside : handle.id.toNat < procedures.length := (List.getElem?_eq_some_iff.1 there).1
  rw [invoke, toInt_lookup found, if_pos ⟨fits.1, by omega⟩]

omit [Host σ] in
/-- A call whose value is bound to no procedure fails. -/
theorem invoke_of_missing {procedures : List Procedure} {r : Registry} {key : Int32}
    (missing : (r.table.find? key).bind (fun h => procedures[h.id.toNat]?) = none) (m : Machine)
    (table : m.table = some r.table) :
    m.invoke procedures.length (Int32.ofInt (r.table.lookup key).id) host =
      .fault (.unregisteredCall m.lastKey r.table.keys) m host := by
  have outside : ¬ (0 ≤ (Int32.ofInt (r.table.lookup key).id).toInt ∧
      (Int32.ofInt (r.table.lookup key).id).toInt < procedures.length) := by
    cases found : r.table.find? key with
    | none =>
      -- A key that is not bound gives a handle below zero.
      rw [Table.lookup, found]
      rintro ⟨low, -⟩
      exact absurd low (by decide)
    | some handle =>
      rw [found, Option.bind_some, List.getElem?_eq_none_iff] at missing
      have fits := r.fits key handle found
      rw [toInt_lookup found]
      omega
  rw [invoke, if_neg outside, table]

/-- The code of a call comes to its last instruction with the handle that is bound to the cell. -/
theorem reaches_invoke {r : Registry} {i : Fin 30000} (callers : List Frame) (host : σ)
    (here : code.Has unit base [.loadPointer, .loadCell, .lookup, .invoke])
    (found : s.position? = some i) (registry : s.registry = some r) :
    ∃ m₁, Reaches code 3 ((s.machine [] callers).stand unit base, host) (m₁, host) ∧
      m₁.step code host =
        (({ s with lastKey := s.cell i }.machine [] callers).stand unit (base + 4)).invoke
          code.procedures.size (Int32.ofInt (r.table.lookup (s.cell i)).id) host := by
  have front := Bytecode.Has.left (a := [.loadPointer, .loadCell, .lookup]) here
  have last := Bytecode.Has.right (a := [.loadPointer, .loadCell, .lookup]) here
  exact ⟨_, reaches_of_executeAll front (by decide) (executeAll_lookup found registry),
    step_of_has last (by decide) _ host⟩

/-- The code of a call stops with the fault of the call. -/
theorem call_faults {p : Program} (emitted : p.Emitted code)
    (here : code.Has unit base [.loadPointer, .loadCell, .lookup, .invoke]) {cause : Fault.Cause}
    {s' : Store} (callee : s.callee p.procedures (callers.length + 1) = .error (cause, s')) :
    ∃ k m₁ host₁ m₂, Reaches code k ((s.machine [] callers).stand unit base, host) (m₁, host₁) ∧
      m₁.step code host₁ = .fault cause m₂ host ∧ m₂.Keeps s' := by
  have room : ([] : List Int32).length < stackLimit := by simp [stackLimit]
  have front := Bytecode.Has.left (a := [.loadPointer, .loadCell, .lookup]) here
  unfold Store.callee at callee
  split at callee
  · next outside =>
    cases callee
    have fault : executeAll code [.loadPointer, .loadCell, .lookup] (s.machine [] callers) host =
        .fault s.outside (s.machine [] callers) host := executeAll_load_outside outside room
    obtain ⟨k, m₁, host₁, position, reached, stop⟩ :=
      reaches_of_executeAll_fault front (by decide) fault
    exact ⟨k, m₁, host₁, _, reached, stop, (s.machine_keeps _ _).stand _ _⟩
  · next i found registry =>
    cases callee
    have table : (s.machine [] callers).table = none := by simp [Store.machine, registry]
    have fault : executeAll code [.loadPointer, .loadCell, .lookup] (s.machine [] callers) host =
        .fault .callWithoutTable (s.machine [] callers) host := by
      rw [executeAll_load found room]
      apply executeAll_of_fault
      show (s.machine [] callers).find (s.cell i) host = _
      rw [find, table]
    obtain ⟨k, m₁, host₁, position, reached, stop⟩ :=
      reaches_of_executeAll_fault front (by decide) fault
    exact ⟨k, m₁, host₁, _, reached, stop, (s.machine_keeps _ _).stand _ _⟩
  · next i r found registry =>
    obtain ⟨m₁, reached, step⟩ := reaches_invoke callers host here found registry
    rw [emitted.count] at step
    have keeps := ({ s with lastKey := s.cell i }.machine_keeps [] callers).stand unit (base + 4)
    dsimp only at callee
    split at callee
    · next missing =>
      cases callee
      rw [invoke_of_missing missing _ (by simp [stand, Store.machine, registry])] at step
      exact ⟨3, m₁, host, _, reached, step, keeps⟩
    · next q there =>
      obtain ⟨handle, bound, there⟩ := Option.bind_eq_some_iff.1 there
      split at callee
      · cases callee
      · next deep =>
        cases callee
        rw [invoke_of_find bound there] at step
        exact ⟨3, m₁, host, _, reached, step.trans (if_neg deep), keeps⟩

/-- The code of a call begins the procedure and waits for its return. -/
theorem reaches_call {p : Program} (host : σ) (emitted : p.Emitted code)
    (here : code.Has unit base [.loadPointer, .loadCell, .lookup, .invoke]) {q : Procedure}
    {s' : Store} (callee : s.callee p.procedures (callers.length + 1) = .ok (q, s')) :
    ∃ id, p.procedures[id]? = some q ∧
      Reaches code 4 ((s.machine [] callers).stand unit base, host)
        ((s'.machine [] (⟨unit, ((base + 4 : Nat) : Int) - 1⟩ :: callers)).stand (some id) 0,
          host) := by
  unfold Store.callee at callee
  split at callee
  · cases callee
  · cases callee
  · next i r found registry =>
    obtain ⟨m₁, reached, step⟩ := reaches_invoke callers host here found registry
    rw [emitted.count] at step
    dsimp only at callee
    split at callee
    · cases callee
    · next q there =>
      obtain ⟨handle, bound, there⟩ := Option.bind_eq_some_iff.1 there
      split at callee
      · next shallow =>
        cases callee
        rw [invoke_of_find bound there] at step
        exact ⟨handle.id.toNat, there, reached.trans (.single (step.trans (if_pos shallow)))⟩
      · cases callee

/-- The end of a procedure goes back to the frame that waits for it. -/
theorem reaches_return {id : Nat} {is : List Instruction} {position : Nat}
    (here : code.Has (some id) base (.leave :: is)) :
    Reaches code 1
      ((s.machine [] (⟨unit, (position : Int) - 1⟩ :: callers)).stand (some id) base, host)
      ((s.machine [] callers).stand unit position, host) :=
  .single (step_of_has here (by decide) _ host)

/-! ## Following an evaluation -/

/-- The machine does what an evaluation with some fuel says: it comes to the end of the nodes with
their store, or stops with their fault, or goes on for at least as many steps as there was fuel. -/
def Follows (code : Bytecode) (fuel : Nat) (m : Machine) (host : σ) (stop : Store → Machine) :
    Option (Outcome σ) → Prop
  | some (.done s host') => ∃ k, Reaches code k (m, host) (stop s, host')
  | some (.fault cause s host') =>
    ∃ k m₁ host₁ m₂, Reaches code k (m, host) (m₁, host₁) ∧
      m₁.step code host₁ = .fault cause m₂ host' ∧ m₂.Keeps s
  | none => ∃ k c, fuel ≤ k ∧ Reaches code k (m, host) c

variable {fuel rest : Nat} {m m' : Machine} {host' : σ} {stop middle : Store → Machine}
  {o : Option (Outcome σ)}

/-- Steps before an evaluation make up for fuel. -/
theorem Follows.after {j : Nat} (first : Reaches code j (m, host) (m', host'))
    (enough : fuel ≤ rest + j) (follows : Follows code rest m' host' stop o) :
    Follows code fuel m host stop o := by
  rcases o with _ | ⟨s, h⟩ | ⟨cause, s, h⟩
  · obtain ⟨k, c, long, reached⟩ := follows
    exact ⟨j + k, c, by omega, first.trans reached⟩
  · obtain ⟨k, reached⟩ := follows
    exact ⟨j + k, first.trans reached⟩
  · obtain ⟨k, m₁, host₁, m₂, reached, fault, keeps⟩ := follows
    exact ⟨j + k, m₁, host₁, m₂, first.trans reached, fault, keeps⟩

/-- One evaluation after another. -/
theorem Follows.andThen {next : Store → σ → Option (Outcome σ)}
    (first : Follows code fuel m host middle o)
    (second : ∀ s host', Follows code fuel (middle s) host' stop (next s host')) :
    Follows code fuel m host stop (Outcome.andThen o next) := by
  rcases o with _ | ⟨s, h⟩ | ⟨cause, s, h⟩
  · exact first
  · obtain ⟨k, reached⟩ := first
    exact (second s h).after reached (by omega)
  · exact first

/-- A loop whose test is not on the tape. -/
theorem follows_outside {is : List Instruction} (outside : s.position? = none)
    (here : code.Has unit base (.loadPointer :: .loadCell :: is)) :
    Follows code fuel ((s.machine [] callers).stand unit base) host stop
      (some (.fault s.outside s host)) := by
  have fault : executeAll code [.loadPointer, .loadCell] (s.machine [] callers) host =
      .fault s.outside (s.machine [] callers) host :=
    executeAll_load_outside outside (by simp [stackLimit])
  obtain ⟨k, m₁, host₁, position, reached, stop⟩ := reaches_of_executeAll_fault
    (Bytecode.Has.left (a := [.loadPointer, .loadCell]) here) (by decide) fault
  exact ⟨k, m₁, host₁, _, reached, stop, (s.machine_keeps _ _).stand _ _⟩

/-- The code of a node that holds no others and calls none. -/
theorem follows_leaf {leaf : Node} (simple : leaf ≠ .call)
    (here : code.Has unit base leaf.leafCode.toList) :
    Follows code fuel ((s.machine [] callers).stand unit base) host
      (fun s => (s.machine [] callers).stand unit (base + Instruction.span leaf.leafCode.toList))
      (some (s.perform host leaf)) := by
  have straight := isStraight_leafCode simple
  have does := executeAll_leafCode code s callers simple host
  cases meaning : s.perform host leaf with
  | done s' host' =>
    rw [meaning] at does
    exact ⟨_, reaches_of_executeAll here straight does⟩
  | fault cause s' host' =>
    rw [meaning] at does
    obtain ⟨m', stops, keeps⟩ := does
    obtain ⟨k, m₁, host₁, position, reached, fault⟩ :=
      reaches_of_executeAll_fault here straight stops
    exact ⟨k, m₁, host₁, _, reached, fault, keeps.stand _ _⟩

end Machine

namespace Program

open Machine

variable {σ : Type} [Host σ] {p : Program} {code : Bytecode}

/-- The code of nodes does what the nodes mean. -/
theorem follows_evalAll (emitted : p.Emitted code) (short : code.Short) {depth fuel : Nat}
    {nodes : List Node} {s : Store} {host : σ} {unit : Option Nat} {base : Nat}
    {callers : List Frame} (level : callers.length + 1 = depth)
    (here : code.Has unit base (Node.instructions base nodes)) :
    Follows code fuel ((s.machine [] callers).stand unit base) host
      (fun s => (s.machine [] callers).stand unit
        (base + Instruction.span (Node.instructions base nodes)))
      (p.evalAll depth fuel nodes s host) := by
  fun_induction p.evalAll depth fuel nodes s host generalizing unit base callers with
  | case1 depth fuel s host => exact ⟨0, .refl _⟩
  | case2 depth fuel s host body rest ihBody ihRest =>
    rw [Node.instructions_sequence] at here ⊢
    refine (ihBody level here.left).andThen fun s host => ?_
    have more := ihRest s host level here.right
    rwa [Instruction.add_span_append]
  | case3 depth fuel s host body rest outside =>
    rw [Node.instructions_loop] at here
    exact follows_outside outside here
  | case4 depth fuel s host body rest i found zero ih =>
    rw [Node.instructions_loop] at here ⊢
    have test := reaches_loopTest callers host short here.left found
    rw [if_pos zero] at test
    refine Follows.after test (Nat.le_add_right _ _) ?_
    have right := here.right
    rw [Node.span_around] at right
    have more := ih level right
    rwa [Instruction.add_span_append, Node.span_around]
  -- Without fuel nothing is claimed of the machine but that it has got so far.
  | case5 depth s host body rest i found nonzero => exact ⟨0, _, Nat.le_refl _, .refl _⟩
  | case6 depth s host body rest i found nonzero fuel ihBody ihLoop =>
    -- The test, the body, and from the end of the body back to the loop as it was.
    have whole := here
    rw [Node.instructions_loop] at here
    have test := reaches_loopTest callers host short here.left found
    rw [if_neg nonzero] at test
    refine Follows.after test (by omega : fuel + 1 ≤ fuel + 3) ?_
    refine (ihBody level (has_body here.left)).andThen fun s host => ?_
    exact (ihLoop s host level whole).after (reaches_loopBack short here.left _)
      (Nat.le_add_right _ _)
  | case7 depth fuel s host rest cause s' callee =>
    rw [Node.instructions_leaf (by simp) (by simp)] at here
    subst level
    exact call_faults emitted here.left callee
  | case8 depth s host rest procedure s' callee => exact ⟨0, _, Nat.le_refl _, .refl _⟩
  | case9 depth s host rest procedure s' callee fuel ihBody ihRest =>
    rw [Node.instructions_leaf (by simp) (by simp)] at here ⊢
    subst level
    obtain ⟨id, found, call⟩ := reaches_call host emitted here.left callee
    -- The body runs in the unit of the procedure, one frame deeper, and its return comes back
    -- behind the call.
    have body : code.Has (some id) 0 (Node.instructions 0 procedure.body ++ [.leave]) :=
      emitted.has (by simp [unitCode, found])
    refine Follows.after call (by omega : fuel + 1 ≤ fuel + 4) ?_
    refine (ihBody (by simp) body.left).andThen fun s host => ?_
    have more := (ihRest s host rfl here.right).after (reaches_return body.right)
      (by omega : fuel ≤ fuel + 1 + 1)
    rwa [Instruction.add_span_append]
  | case10 depth fuel s host leaf rest noSequence noLoop noCall ih =>
    rw [Node.instructions_leaf noSequence noLoop] at here ⊢
    refine (follows_leaf noCall here.left).andThen fun s host => ?_
    have more := ih s host level here.right
    rwa [Instruction.add_span_append]

end Program

/-! ## Endings -/

namespace Machine

variable {σ : Type} [Host σ] {code : Bytecode} {m : Machine} {host : σ}

/-- The end of a run shows a behaviour. -/
def Ending.Shows : Ending σ → Behaviour σ → Prop
  | .done report m host, b =>
    report.result = b.result ∧ report.fault.map Fault.cause = b.fault ∧ m.Keeps b.store ∧
      host = b.host
  | _, _ => False

/-- The machine comes to a step that ends the run with a behaviour, but for sending on what was
written. -/
def Ends (code : Bytecode) (m : Machine) (host : σ) (b : Behaviour σ) : Prop :=
  ∃ k m₁ host₁ m₂, Reaches code k (m, host) (m₁, host₁) ∧ m₂.Keeps b.store ∧
    match b.fault with
    | none => m₁.step code host₁ = .halt b.result m₂ b.host
    | some cause => m₁.step code host₁ = .fault cause m₂ b.host ∧ b.result = 0

omit [Host σ] in
/-- The storage of a machine is no more than one store. -/
theorem Keeps.unique {s s' : Store} (h : m.Keeps s) (h' : m.Keeps s') : s = s' := by
  have registry : s.registry = s'.registry := by
    have tables := h.table.symm.trans h'.table
    rcases first : s.registry with _ | ⟨table, fits⟩ <;>
      rcases second : s'.registry with _ | ⟨table', fits'⟩ <;> simp_all
  have tape : s.tape = s'.tape := Vector.toArray_inj.1 (h.tape.symm.trans h'.tape)
  cases s
  cases s'
  simp only [Store.mk.injEq]
  exact ⟨tape, h.pointer.symm.trans h'.pointer, registry, h.scratch.symm.trans h'.scratch,
    h.lastKey.symm.trans h'.lastKey⟩

omit [Host σ] in
/-- The end of a run shows no more than one behaviour. -/
theorem Ending.Shows.unique {e : Ending σ} {b b' : Behaviour σ} (h : e.Shows b) (h' : e.Shows b') :
    b = b' := by
  cases e with
  | done report m host =>
    obtain ⟨result, fault, keeps, left⟩ := h
    obtain ⟨result', fault', keeps', left'⟩ := h'
    cases b
    cases b'
    simp only [Behaviour.mk.injEq]
    exact ⟨result.symm.trans result', fault.symm.trans fault', keeps.unique keeps',
      left.symm.trans left'⟩
  | broken | unfinished => exact h.elim

/-- A run that ends with the result, the fault and the store of a behaviour shows it, after its
flush. -/
theorem finish_shows {report : Report} {b : Behaviour σ} (result : report.result = b.result)
    (fault : report.fault.map Fault.cause = b.fault) (keeps : m.Keeps b.store) :
    (m.finish report b.host).Shows b.flush := by
  unfold finish Behaviour.flush
  rw [← fault]
  rcases report with ⟨_, _ | failure⟩ <;> rcases Host.flush b.host with ⟨reason | _, left⟩ <;>
    exact ⟨result, rfl, keeps, rfl⟩

/-- A run that comes to an end shows its behaviour. -/
theorem Ends.run_shows {b : Behaviour σ} (h : Ends code m host b) :
    ∃ limit, (m.run code limit host).Shows b.flush := by
  obtain ⟨k, m₁, host₁, m₂, reached, keeps, last⟩ := h
  have first := steps_of_reaches reached 1
  refine ⟨k + 1, ?_⟩
  rw [run, first, steps]
  cases fault : b.fault with
  | none =>
    rw [fault] at last
    rw [last]
    exact finish_shows rfl fault.symm keeps
  | some cause =>
    rw [fault] at last
    rw [last.1]
    exact finish_shows last.2.symm fault.symm keeps

/-- Runs that are over end in the same way, whatever their limits. -/
theorem run_eq_run {limit limit' : Nat} (ended : m.run code limit host ≠ .unfinished)
    (ended' : m.run code limit' host ≠ .unfinished) :
    m.run code limit host = m.run code limit' host := by
  have same (a b : Nat) (ended : m.run code a host ≠ .unfinished) :
      m.run code (a + b) host = m.run code a host := by
    have steps_over : steps code a m host ≠ .unfinished := by
      intro unfinished
      rw [run, unfinished] at ended
      exact ended rfl
    rw [run, run, steps_mono steps_over]
  rw [← same limit limit' ended, ← same limit' limit ended', Nat.add_comm]

end Machine

/-! ## Whole programs -/

namespace Program

open Machine

variable {σ : Type} [Host σ] {p : Program} {code : Bytecode}

/-- What a program does before its main body makes its first store. -/
theorem executeAll_prologue (p : Program) (code : Bytecode) (host : σ) :
    executeAll code p.prologue.toList {} host = .next (p.start.machine [] []) host := by
  by_cases dispatches : p.dispatches = true
  · simp only [prologue, start, dispatches, if_true]
    rfl
  · simp only [prologue, start, dispatches]
    rfl

theorem isStraight_prologue (p : Program) : ∀ i ∈ p.prologue.toList, i.isStraight = true := by
  by_cases dispatches : p.dispatches = true
  · simp only [prologue, dispatches, if_true]
    decide
  · simp only [prologue, dispatches]
    decide

/-- What a program does after its main body ends its run. -/
theorem ends_of_epilogue {s : Store} {host : σ} {base : Nat} {m : Machine} {start : σ} {k : Nat}
    (here : code.Has none base epilogue.toList)
    (reached : Reaches code k (m, start) ((s.machine [] []).stand none base, host)) :
    Ends code m start (Outcome.done s host).behaviour := by
  have room : ([] : List Int32).length < stackLimit := by simp [stackLimit]
  have load := Bytecode.Has.left (a := [.loadPointer, .loadCell]) here
  have last := Bytecode.Has.right (a := [.loadPointer, .loadCell]) here
  cases found : s.position? with
  | none =>
    have shown : (Outcome.done s host).behaviour = ⟨0, some s.outside, s, host⟩ := by
      simp only [Outcome.behaviour, found]
    have fault : executeAll code [.loadPointer, .loadCell] (s.machine [] []) host =
        .fault s.outside (s.machine [] []) host := executeAll_load_outside found room
    obtain ⟨j, m₁, host₁, position, more, stop⟩ :=
      reaches_of_executeAll_fault load (by decide) fault
    rw [shown]
    exact ⟨k + j, m₁, host₁, _, reached.trans more, (s.machine_keeps _ _).stand _ _, stop, rfl⟩
  | some i =>
    have shown : (Outcome.done s host).behaviour = ⟨s.cell i, none, s, host⟩ := by
      simp only [Outcome.behaviour, found]
    have value : executeAll code [.loadPointer, .loadCell] (s.machine [] []) host =
        .next (s.machine [s.cell i] []) host := executeAll_load found room
    have more := reaches_of_executeAll load (by decide) value
    rw [shown]
    exact ⟨_, _, _, _, reached.trans more, (s.machine_keeps [] []).stand none _,
      step_of_has last (by decide) _ host⟩

/-- The main unit begins with what makes the first store, and ends with what makes the result. -/
theorem exists_main (emitted : p.Emitted code) (host : σ) :
    ∃ k base, Reaches code k ({}, host) ((p.start.machine [] []).stand none base, host) ∧
      code.Has none base (Node.instructions base p.main) ∧
      code.Has none (base + Instruction.span (Node.instructions base p.main)) epilogue.toList := by
  have whole := emitted.has (u := none) rfl
  have body := whole.left.right
  have last := whole.right
  rw [Nat.zero_add] at body
  rw [Instruction.add_span_append, Nat.zero_add] at last
  have start := reaches_of_executeAll whole.left.left p.isStraight_prologue
    (executeAll_prologue p code host)
  rw [Nat.zero_add] at start
  exact ⟨_, _, start, body, last⟩

/-- A new machine with the code of a program follows its evaluation. -/
theorem follows_main (emitted : p.Emitted code) (short : code.Short) (fuel : Nat) (host : σ) :
    ∃ position, code.Has none position epilogue.toList ∧
      Follows code fuel {} host (fun s => (s.machine [] []).stand none position)
        (p.evalAll 1 fuel p.main p.start host) := by
  obtain ⟨k, base, start, body, last⟩ := exists_main emitted host
  exact ⟨_, last, (follows_evalAll emitted short rfl body).after start (Nat.le_add_right _ _)⟩

/-- Where the evaluation of the main body ends, the run of the program ends alike. -/
theorem ends_of_evalAll (emitted : p.Emitted code) (short : code.Short) {fuel : Nat} {host : σ}
    {o : Outcome σ} (h : p.evalAll 1 fuel p.main p.start host = some o) :
    Ends code {} host o.behaviour := by
  obtain ⟨position, last, follows⟩ := follows_main emitted short fuel host
  rw [h] at follows
  cases o with
  | done s host' =>
    obtain ⟨k, reached⟩ := follows
    exact ends_of_epilogue last reached
  | fault cause s host' =>
    obtain ⟨k, m₁, host₁, m₂, reached, stop, keeps⟩ := follows
    exact ⟨k, m₁, host₁, m₂, reached, keeps, stop, rfl⟩

/-- Without enough fuel for the program, the machine does not come to an end in as many steps. -/
theorem run_unfinished_of_eval (emitted : p.Emitted code) (short : code.Short) {fuel : Nat}
    {host : σ} (h : p.eval fuel host = none) : ({} : Machine).run code fuel host = .unfinished := by
  obtain ⟨position, last, follows⟩ := follows_main emitted short fuel host
  rw [Option.map_eq_none_iff.1 h] at follows
  obtain ⟨k, c, long, reached⟩ := follows
  have unfinished : steps code fuel {} host = .unfinished :=
    steps_unfinished_of_reaches reached long
  rw [run, unfinished]

/-- With enough fuel for the program, the machine shows its behaviour. -/
theorem run_shows_of_eval (emitted : p.Emitted code) (short : code.Short) {fuel : Nat} {host : σ}
    {b : Behaviour σ} (h : p.eval fuel host = some b) :
    ∃ limit, (({} : Machine).run code limit host).Shows b := by
  obtain ⟨o, outcome, rfl⟩ := Option.map_eq_some_iff.1 h
  exact (ends_of_evalAll emitted short outcome).run_shows

/-- **Compiled programs do what they mean.** Bytecode never breaks a new machine, and its runs show
exactly the behaviours of the program, whatever the host: the result or the fault, and all that is
left of the store and the host. A host may record what is asked of it, so this goes for reads and
writes and their order as well. Every run that is over shows a behaviour, so a run comes to no end
just when evaluation does not. -/
theorem compile_correct {p : Program} {code : Bytecode} (compiled : p.compile = .ok code)
    (short : code.Short) (host : σ) :
    (∀ limit how left, ({} : Machine).run code limit host ≠ .broken how left) ∧
      (∀ limit, ({} : Machine).run code limit host ≠ .unfinished →
        ∃ b, (({} : Machine).run code limit host).Shows b) ∧
      ∀ b : Behaviour σ, (∃ limit, (({} : Machine).run code limit host).Shows b) ↔
        ∃ fuel, p.eval fuel host = some b := by
  have emitted := emitted_of_compile compiled
  -- A run that is over within a limit cannot lack fuel when it has as much as the limit.
  have agrees (limit : Nat) (ended : ({} : Machine).run code limit host ≠ .unfinished) :
      ∃ b, p.eval limit host = some b ∧ (({} : Machine).run code limit host).Shows b := by
    cases evaluated : p.eval limit host with
    | none => exact absurd (run_unfinished_of_eval emitted short evaluated) ended
    | some b =>
      obtain ⟨limit', shows⟩ := run_shows_of_eval emitted short evaluated
      have ended' : ({} : Machine).run code limit' host ≠ .unfinished := by
        intro unfinished
        rw [unfinished] at shows
        exact shows
      exact ⟨b, rfl, run_eq_run ended ended' ▸ shows⟩
  refine ⟨fun limit how left broken => ?_, fun limit ended => ?_, fun b => ⟨?_, ?_⟩⟩
  · obtain ⟨b, -, shows⟩ := agrees limit (by rw [broken]; exact nofun)
    rw [broken] at shows
    exact shows
  · obtain ⟨b, -, shows⟩ := agrees limit ended
    exact ⟨b, shows⟩
  · rintro ⟨limit, shows⟩
    have ended : ({} : Machine).run code limit host ≠ .unfinished := by
      intro unfinished
      rw [unfinished] at shows
      exact shows
    obtain ⟨b', evaluated, shows'⟩ := agrees limit ended
    exact ⟨limit, shows.unique shows' ▸ evaluated⟩
  · rintro ⟨fuel, evaluated⟩
    exact run_shows_of_eval emitted short evaluated

/-- A program that registers a procedure with a loop under the key two and calls it, in front of a
host with one character to read. -/
theorem compile_correct_of_calling :
    ∃ code : Bytecode,
      compile { main := [.amend 2, .register 0, .call]
                procedures := [⟨0, [.loop [.amend (-1)], .read, .write]⟩] } = .ok code ∧
      code.Short ∧
      (∀ limit how left,
        ({} : Machine).run code limit ({ reads := [.ok 65] } : Host.Script) ≠ .broken how left) ∧
      (∀ limit, ({} : Machine).run code limit ({ reads := [.ok 65] } : Host.Script) ≠ .unfinished →
        ∃ b, (({} : Machine).run code limit ({ reads := [.ok 65] } : Host.Script)).Shows b) ∧
      ∀ b : Behaviour Host.Script,
        (∃ limit, (({} : Machine).run code limit { reads := [.ok 65] }).Shows b) ↔
        ∃ fuel, eval { main := [.amend 2, .register 0, .call]
                       procedures := [⟨0, [.loop [.amend (-1)], .read, .write]⟩] }
                  fuel { reads := [.ok 65] } = some b := by
  refine ⟨_, rfl, ⟨by decide, by decide⟩, ?_⟩
  exact compile_correct rfl ⟨by decide, by decide⟩ _

end Program

end TapeLang
