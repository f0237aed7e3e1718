/-
# Where programs fail

The trace of a fault names the units that are active, innermost first. Evaluation can say this as
well: `Program.evalUnder` evaluates nodes under a trail of active units, which grows with each call,
and answers with the trail at which they end. But for the trail it is `evalAll`:
`Program.map_fst_evalUnder`.

When evaluation fails, the machine stops with a fault whose trace names the units of the trail,
`Program.stops_of_evalUnder`, so that what a run shows comes with the trail of its fault:
`Program.run_sights_of_sight`.
-/
import TapeLang.Proofs.Simulation

namespace TapeLang

/-- How nodes end, and the units that are active then, innermost first. -/
abbrev Sighting (σ : Type) := Outcome σ × List Handle

/-- Goes on after nodes that end without a fault. -/
def Sighting.andThen {σ : Type} (o : Option (Sighting σ))
    (next : Store → σ → Option (Sighting σ)) : Option (Sighting σ) :=
  match o with
  | some (.done s host, _) => next s host
  | stopped => stopped

theorem Sighting.map_fst_andThen {σ : Type} (o : Option (Sighting σ))
    (next : Store → σ → Option (Sighting σ)) :
    (andThen o next).map Prod.fst =
      Outcome.andThen (o.map Prod.fst) fun s host => (next s host).map Prod.fst := by
  rcases o with _ | ⟨_ | _, _⟩ <;> rfl

/-- Whether nodes end with a fault. -/
def Outcome.isFault {σ : Type} : Outcome σ → Bool
  | .done .. => false
  | .fault .. => true

/-- Two evaluations one after another end with the fault of the first one, or as the second one
does. -/
theorem Sighting.andThen_eq_some {σ : Type} {o : Option (Sighting σ)}
    {next : Store → σ → Option (Sighting σ)} {r : Sighting σ} (h : andThen o next = some r) :
    (o = some r ∧ r.1.isFault = true) ∨
      ∃ s host trail, o = some (.done s host, trail) ∧ next s host = some r := by
  rcases o with _ | ⟨⟨s, host⟩ | ⟨cause, s, host⟩, trail⟩
  · cases h
  · exact .inr ⟨s, host, trail, rfl, h⟩
  · cases h
    exact .inl ⟨rfl, rfl⟩

namespace Program

variable {σ : Type} [Host σ]

/-- Evaluates nodes one after another while the units of a trail are active. -/
def evalUnder (p : Program) (trail : List Handle) (fuel : Nat) (nodes : List Node) (s : Store)
    (host : σ) : Option (Sighting σ) :=
  match nodes with
  | [] => some (.done s host, trail)
  | .sequence body :: rest =>
    Sighting.andThen (evalUnder p trail fuel body s host) fun s host =>
      evalUnder p trail fuel rest s host
  | .loop body :: rest =>
    match s.position? with
    | none => some (.fault s.outside s host, trail)
    | some i =>
      if s.cell i = 0 then evalUnder p trail fuel rest s host
      else
        match fuel with
        | 0 => none
        | fuel + 1 =>
          Sighting.andThen (evalUnder p trail fuel body s host) fun s host =>
            evalUnder p trail fuel (.loop body :: rest) s host
  | .call :: rest =>
    match s.callee p.procedures trail.length with
    | .error (cause, s) => some (.fault cause s host, trail)
    | .ok (procedure, s) =>
      match fuel with
      | 0 => none
      | fuel + 1 =>
        Sighting.andThen (evalUnder p (⟨procedure.id⟩ :: trail) fuel procedure.body s host)
          fun s host =>
          evalUnder p trail (fuel + 1) rest s host
  | leaf :: rest =>
    Sighting.andThen (some (s.perform host leaf, trail)) fun s host =>
      evalUnder p trail fuel rest s host
termination_by (fuel, sizeOf nodes)

section Equations

variable {p : Program} {trail : List Handle} {fuel : Nat} {body rest : List Node} {s s' : Store}
  {host : σ} {i : Fin 30000}

theorem evalUnder_loop_outside (outside : s.position? = none) :
    p.evalUnder trail fuel (.loop body :: rest) s host = some (.fault s.outside s host, trail) := by
  rw [evalUnder.eq_def]
  simp only [outside]

theorem evalUnder_loop_zero (found : s.position? = some i) (zero : s.cell i = 0) :
    p.evalUnder trail fuel (.loop body :: rest) s host = p.evalUnder trail fuel rest s host := by
  rw [evalUnder.eq_def p trail fuel (.loop body :: rest)]
  simp only [found, zero, if_true]

theorem evalUnder_loop_round (found : s.position? = some i) (nonzero : ¬ s.cell i = 0) :
    p.evalUnder trail (fuel + 1) (.loop body :: rest) s host =
      Sighting.andThen (p.evalUnder trail fuel body s host) fun s host =>
        p.evalUnder trail fuel (.loop body :: rest) s host := by
  rw [evalUnder.eq_def]
  simp only [found, nonzero, if_false]

/-- A round of a loop takes fuel. -/
theorem evalUnder_loop_none (found : s.position? = some i) (nonzero : ¬ s.cell i = 0) :
    p.evalUnder trail 0 (.loop body :: rest) s host = none := by
  rw [evalUnder.eq_def]
  simp only [found, nonzero, if_false]

/-- A call that finds no procedure ends with a fault under the same trail. -/
theorem evalUnder_call_error {cause : Fault.Cause}
    (callee : s.callee p.procedures trail.length = .error (cause, s')) :
    p.evalUnder trail fuel (.call :: rest) s host = some (.fault cause s' host, trail) := by
  rw [evalUnder.eq_def]
  simp only [callee]

/-- A call evaluates the body of its procedure under a longer trail, and then what is behind it. -/
theorem evalUnder_call_ok {procedure : Procedure}
    (callee : s.callee p.procedures trail.length = .ok (procedure, s')) :
    p.evalUnder trail (fuel + 1) (.call :: rest) s host =
      Sighting.andThen (p.evalUnder (⟨procedure.id⟩ :: trail) fuel procedure.body s' host)
        fun s host =>
        p.evalUnder trail (fuel + 1) rest s host := by
  rw [evalUnder.eq_def]
  simp only [callee]

/-- A call takes fuel. -/
theorem evalUnder_call_none {procedure : Procedure}
    (callee : s.callee p.procedures trail.length = .ok (procedure, s')) :
    p.evalUnder trail 0 (.call :: rest) s host = none := by
  rw [evalUnder.eq_def]
  simp only [callee]

/-- A node that holds no others and calls none is performed. -/
theorem evalUnder_leaf {leaf : Node} (noSequence : ∀ body, leaf ≠ .sequence body)
    (noLoop : ∀ body, leaf ≠ .loop body) (noCall : leaf ≠ .call) :
    p.evalUnder trail fuel (leaf :: rest) s host =
      Sighting.andThen (some (s.perform host leaf, trail)) fun s host =>
        p.evalUnder trail fuel rest s host := by
  rw [evalUnder]
  · exact noSequence
  · exact noLoop
  · exact noCall

end Equations

/-- Evaluation under a trail is evaluation. -/
theorem map_fst_evalUnder (p : Program) (trail : List Handle) (fuel : Nat) (nodes : List Node)
    (s : Store) (host : σ) :
    (p.evalUnder trail fuel nodes s host).map Prod.fst =
      p.evalAll trail.length fuel nodes s host := by
  fun_induction p.evalUnder trail fuel nodes s host with
  | case1 trail fuel s host => simp only [evalAll, Option.map_some]
  | case2 trail fuel s host body rest ihBody ihRest =>
    simp only [evalAll, Sighting.map_fst_andThen, ihBody, ihRest]
  | case3 trail fuel s host body rest outside =>
    rw [evalAll.eq_def]
    simp only [outside, Option.map_some]
  | case4 trail fuel s host body rest i found zero ih =>
    rw [ih, evalAll.eq_def p trail.length fuel (.loop body :: rest)]
    simp only [found, zero, if_true]
  | case5 trail s host body rest i found nonzero =>
    rw [evalAll.eq_def]
    simp only [found, nonzero, if_false, Option.map_none]
  | case6 trail s host body rest i found nonzero fuel ihBody ihLoop =>
    rw [evalAll.eq_def]
    simp only [found, nonzero, if_false, Sighting.map_fst_andThen, ihBody, ihLoop]
  | case7 trail fuel s host rest cause s' callee =>
    rw [evalAll.eq_def]
    simp only [callee, Option.map_some]
  | case8 trail s host rest procedure s' callee =>
    rw [evalAll.eq_def]
    simp only [callee, Option.map_none]
  | case9 trail s host rest procedure s' callee fuel ihBody ihRest =>
    rw [evalAll.eq_def]
    simp only [callee, Sighting.map_fst_andThen, ihBody, ihRest, List.length_cons]
  | case10 trail fuel s host leaf rest noSequence noLoop noCall ih =>
    rw [evalAll]
    · simp only [Sighting.map_fst_andThen, ih, Option.map_some]
    · exact noSequence
    · exact noLoop
    · exact noCall

end Program

/-! ## Frames that straight code leaves alone -/

/-- A step after which these frames wait, if it does not end the run without a fault. -/
def Step.Under {σ : Type} (callers : List Frame) : Step σ → Prop
  | .next m _ | .fault _ m _ => m.callers = callers
  | .halt .. | .broken .. => True

namespace Machine

variable {σ : Type} {m : Machine} {host : σ}

theorem push_under (m : Machine) (value : Int32) (host : σ) :
    (m.push value host).Under m.callers := by
  unfold push
  split <;> rfl

theorem storeCell_under (m : Machine) (index value : Int32) (host : σ) :
    (m.storeCell index value host).Under m.callers := by
  unfold storeCell
  split <;> rfl

theorem loadCell_under (m : Machine) (index : Int32) (host : σ) :
    (m.loadCell index host).Under m.callers := by
  unfold loadCell
  split
  · exact push_under m _ host
  · rfl

theorem bind_under (m : Machine) (key : Int32) (handle : Handle) (host : σ) :
    (m.bind key handle host).Under m.callers := by
  unfold bind
  split
  · rfl
  · split <;> rfl

theorem find_under (m : Machine) (key : Int32) (host : σ) : (m.find key host).Under m.callers := by
  unfold find
  split
  · rfl
  · exact push_under { m with lastKey := key } _ host

variable [Host σ] {code : Bytecode}

/-- Straight instructions leave the waiting frames alone. -/
theorem execute_under (code : Bytecode) {i : Instruction} (straight : i.isStraight = true)
    (m : Machine) (host : σ) :
    (m.execute code host i).Under m.callers := by
  cases i with
  | jumpZero | loop | invoke | leave | returnValue => cases straight
  | newTape | newTable => rfl
  | constant | loadPointer | loadScratch | procedure => exact push_under m _ host
  | storePointer | storeScratch =>
    simp only [execute]
    split <;> trivial
  | loadCell =>
    simp only [execute]
    split
    · exact loadCell_under { m with stack := _ } _ host
    · trivial
  | storeCell =>
    simp only [execute]
    split
    · exact storeCell_under { m with stack := _ } _ _ host
    · trivial
  | add | sub =>
    simp only [execute]
    split
    · exact push_under { m with stack := _ } _ host
    · trivial
  | read =>
    simp only [execute]
    split
    · exact push_under m _ _
    · rfl
  | write =>
    simp only [execute]
    split
    · split <;> rfl
    · trivial
  | register =>
    simp only [execute]
    split
    · exact bind_under { m with stack := _ } _ _ host
    · trivial
  | lookup =>
    simp only [execute]
    split
    · exact find_under { m with stack := _ } _ host
    · trivial

/-- A fault in straight code leaves the waiting frames alone. -/
theorem callers_of_executeAll_fault {is : List Instruction}
    (straight : ∀ i ∈ is, i.isStraight = true) {m m' : Machine} {host host' : σ}
    {cause : Fault.Cause} (fault : executeAll code is m host = .fault cause m' host') :
    m'.callers = m.callers := by
  induction is generalizing m host with
  | nil => cases fault
  | cons i is ih =>
    have stored : i.stored.isStraight = true := by
      rw [Instruction.isStraight_stored]
      exact straight i List.mem_cons_self
    have under := execute_under code stored m host
    rw [executeAll] at fault
    cases first : m.execute code host i.stored with
    | next m₁ host₁ =>
      rw [first] at under fault
      exact (ih (fun j member => straight j (List.mem_cons_of_mem _ member)) fault).trans under
    | fault _ _ _ =>
      rw [first] at under fault
      cases fault
      exact under
    | halt _ _ _ | broken _ _ =>
      rw [first] at fault
      cases fault

/-! ## Faults and their trails -/

/-- The active units, innermost first. -/
def trail (m : Machine) : List Handle :=
  m.trace.map Fault.Entry.unit

omit [Host σ] in
theorem trail_stand (m : Machine) (unit : Option Nat) (position : Nat) :
    (m.stand unit position).trail = ({ unit := unit } : Frame).handle ::
      m.callers.map Frame.handle := by
  simp [trail, trace, stand, Frame.handle, Function.comp_def]

omit [Host σ] in
/-- The machine that a step leaves when it ends the run. -/
def Stopped (step : Step σ) (m : Machine) : Prop :=
  (∃ cause host, step = .fault cause m host) ∨ ∃ result host, step = .halt result m host

/-- The machine comes to a step that ends the run while the units of a trail are active. -/
def Stops (code : Bytecode) (m : Machine) (host : σ) (trail : List Handle) : Prop :=
  ∃ k m₁ host₁ m₂, Reaches code k (m, host) (m₁, host₁) ∧ Stopped (m₁.step code host₁) m₂ ∧
    m₂.trail = trail

variable {unit : Option Nat} {base : Nat} {is : List Instruction} {m m' : Machine}
  {host host' left : σ} {cause : Fault.Cause} {trail : List Handle}

/-- A machine that some steps lead to where it stops under a trail stops under it itself. -/
theorem Stops.after {j : Nat} (first : Reaches code j (m, host) (m', host'))
    (stops : Stops code m' host' trail) : Stops code m host trail := by
  obtain ⟨k, m₁, host₁, m₂, reached, stopped, active⟩ := stops
  exact ⟨j + k, m₁, host₁, m₂, first.trans reached, stopped, active⟩

/-- A fault in straight code comes while the unit of the code and those that wait for it are
active. -/
theorem stops_of_executeAll (here : code.Has unit base is)
    (straight : ∀ i ∈ is, i.isStraight = true)
    (fault : executeAll code is m host = .fault cause m' left) :
    Stops code (m.stand unit base) host
      (({ unit := unit } : Frame).handle :: m.callers.map Frame.handle) := by
  obtain ⟨k, m₁, host₁, position, reached, stop⟩ := reaches_of_executeAll_fault here straight fault
  refine ⟨k, m₁, host₁, _, reached, .inl ⟨_, _, stop⟩, ?_⟩
  rw [trail_stand, callers_of_executeAll_fault straight fault]

variable {s s' : Store} {callers : List Frame}

/-- A call fails while the unit that calls is active. -/
theorem stops_of_callee {p : Program} (emitted : p.Emitted code)
    (here : code.Has unit base [.loadPointer, .loadCell, .lookup, .invoke])
    (callee : s.callee p.procedures (callers.length + 1) = .error (cause, s')) :
    Stops code ((s.machine [] callers).stand unit base) host
      (({ unit := unit } : Frame).handle :: callers.map Frame.handle) := by
  have room : ([] : List Int32).length < stackLimit := by simp [stackLimit]
  have front := Bytecode.Has.left (a := [.loadPointer, .loadCell, .lookup]) here
  unfold Store.callee at callee
  split at callee
  · next outside =>
    cases callee
    exact stops_of_executeAll front (by decide) (executeAll_load_outside outside room)
  · next i found registry =>
    cases callee
    have fault : executeAll code [.loadPointer, .loadCell, .lookup] (s.machine [] callers) host =
        .fault .callWithoutTable (s.machine [] callers) host := by
      rw [executeAll_load found room]
      apply executeAll_of_fault
      show (s.machine [] callers).find (s.cell i) host = _
      rw [find, show (s.machine [] callers).table = none by simp [Store.machine, registry]]
    exact stops_of_executeAll front (by decide) fault
  · next i r found registry =>
    obtain ⟨m₁, reached, step⟩ := reaches_invoke callers host here found registry
    rw [emitted.count] at step
    dsimp only at callee
    split at callee
    · next missing =>
      cases callee
      rw [invoke_of_missing missing _ (by simp [stand, Store.machine, registry])] at step
      exact ⟨3, m₁, host, _, reached, .inl ⟨_, _, step⟩, trail_stand ..⟩
    · next q there =>
      obtain ⟨handle, bound, there⟩ := Option.bind_eq_some_iff.1 there
      split at callee
      · cases callee
      · next deep =>
        cases callee
        rw [invoke_of_find bound there] at step
        exact ⟨3, m₁, host, _, reached, .inl ⟨_, _, step.trans (if_neg deep)⟩, trail_stand ..⟩

end Machine

namespace Program

open Machine

variable {σ : Type} [Host σ] {p : Program} {code : Bytecode}

/-- Nodes that end without a fault end under the trail they began with, and the machine comes to
their end. -/
theorem reaches_of_evalUnder (emitted : p.Emitted code) (short : code.Short)
    {trail trail' : List Handle} {fuel : Nat} {nodes : List Node} {s s' : Store} {host host' : σ}
    {unit : Option Nat} {base : Nat} {callers : List Frame}
    (level : callers.length + 1 = trail.length)
    (here : code.Has unit base (Node.instructions base nodes))
    (h : p.evalUnder trail fuel nodes s host = some (.done s' host', trail')) :
    ∃ k, Reaches code k ((s.machine [] callers).stand unit base, host)
      ((s'.machine [] callers).stand unit (base + Instruction.span (Node.instructions base nodes)),
        host') := by
  have follows : Follows code fuel _ host _ (p.evalAll trail.length fuel nodes s host) :=
    follows_evalAll emitted short level here
  rw [← map_fst_evalUnder, h] at follows
  exact follows

/-- Procedures stand at the places of their numbers. -/
def Ordered (p : Program) : Prop :=
  ∀ (id : Nat) (q : Procedure), p.procedures[id]? = some q → q.id = id

/-- Where nodes fail, the machine stops, and the units of the trail are active. -/
theorem stops_of_evalUnder (emitted : p.Emitted code) (short : code.Short) (ordered : p.Ordered)
    {trail trail' : List Handle} {fuel : Nat} {nodes : List Node} {s s' : Store} {host left : σ}
    {cause : Fault.Cause} {unit : Option Nat} {base : Nat} {callers : List Frame}
    (level : ({ unit := unit } : Frame).handle :: callers.map Frame.handle = trail)
    (here : code.Has unit base (Node.instructions base nodes))
    (h : p.evalUnder trail fuel nodes s host = some (.fault cause s' left, trail')) :
    Stops code ((s.machine [] callers).stand unit base) host trail' := by
  have depth {unit : Option Nat} {callers : List Frame} {trail : List Handle}
      (level : ({ unit := unit } : Frame).handle :: callers.map Frame.handle = trail) :
      callers.length + 1 = trail.length := by
    simp [← level]
  fun_induction p.evalUnder trail fuel nodes s host generalizing unit base callers with
  | case1 trail fuel s host => cases h
  | case2 trail fuel s host body rest ihBody ihRest =>
    rw [Node.instructions_sequence] at here
    rcases Sighting.andThen_eq_some h with ⟨first, -⟩ | ⟨s₁, host₁, trail₁, first, second⟩
    · exact ihBody level here.left first
    · obtain ⟨k, reached⟩ := reaches_of_evalUnder emitted short (depth level) here.left first
      exact (ihRest s₁ host₁ level here.right second).after reached
  | case3 trail fuel s host body rest outside =>
    rw [Node.instructions_loop] at here
    cases h
    rw [← level]
    exact stops_of_executeAll (Bytecode.Has.left (a := [.loadPointer, .loadCell]) here.left)
      (by decide)
      (executeAll_load_outside outside (by simp [stackLimit]))
  | case4 trail fuel s host body rest i found zero ih =>
    rw [Node.instructions_loop] at here
    have test := reaches_loopTest callers host short here.left found
    rw [if_pos zero] at test
    have right := here.right
    rw [Node.span_around] at right
    exact (ih level right h).after test
  | case5 trail s host body rest i found nonzero => cases h
  | case6 trail s host body rest i found nonzero fuel ihBody ihLoop =>
    have whole := here
    rw [Node.instructions_loop] at here
    have test := reaches_loopTest callers host short here.left found
    rw [if_neg nonzero] at test
    refine Stops.after test ?_
    rcases Sighting.andThen_eq_some h with ⟨first, -⟩ | ⟨s₁, host₁, trail₁, first, second⟩
    · exact ihBody level (has_body here.left) first
    · obtain ⟨k, reached⟩ :=
        reaches_of_evalUnder emitted short (depth level) (has_body here.left) first
      have back : Reaches code 1 (_, host₁) _ :=
        reaches_loopBack short here.left (s₁.machine [] callers)
      exact (ihLoop s₁ host₁ level whole second).after (reached.trans back)
  | case7 trail fuel s host rest cause s' callee =>
    rw [Node.instructions_leaf (by simp) (by simp)] at here
    rw [← depth level] at callee
    cases h
    rw [← level]
    exact stops_of_callee emitted here.left callee
  | case8 trail s host rest procedure s' callee => cases h
  | case9 trail s host rest procedure s' callee fuel ihBody ihRest =>
    rw [Node.instructions_leaf (by simp) (by simp)] at here
    rw [← depth level] at callee
    obtain ⟨id, found, call⟩ := reaches_call host emitted here.left callee
    have body : code.Has (some id) 0 (Node.instructions 0 procedure.body ++ [.leave]) :=
      emitted.has (by simp [unitCode, found])
    -- In the body the unit of the procedure is active, and the unit that called it waits.
    have deeper : ({ unit := some id } : Frame).handle ::
        (⟨unit, ((base + 4 : Nat) : Int) - 1⟩ :: callers).map Frame.handle =
        ⟨procedure.id⟩ :: trail := by
      rw [ordered id procedure found, ← level]
      rfl
    refine Stops.after call ?_
    rcases Sighting.andThen_eq_some h with ⟨first, -⟩ | ⟨s₁, host₁, trail₁, first, second⟩
    · exact ihBody deeper body.left first
    · obtain ⟨k, reached⟩ := reaches_of_evalUnder emitted short (depth deeper) body.left first
      have back :
          Reaches code 1 (_, host₁) ((s₁.machine [] callers).stand unit (base + 4), host₁) :=
        reaches_return body.right
      exact (ihRest s₁ host₁ level here.right second).after (reached.trans back)
  | case10 trail fuel s host leaf rest noSequence noLoop noCall ih =>
    rw [Node.instructions_leaf noSequence noLoop] at here
    have straight := isStraight_leafCode noCall
    have does := executeAll_leafCode code s callers noCall host
    rcases Sighting.andThen_eq_some h with ⟨first, -⟩ | ⟨s₁, host₁, trail₁, first, second⟩
    · simp only [Option.some.injEq, Prod.mk.injEq] at first
      rw [first.1] at does
      obtain ⟨m', fault, -⟩ := does
      rw [← first.2, ← level]
      exact stops_of_executeAll here.left straight fault
    · simp only [Option.some.injEq, Prod.mk.injEq] at first
      rw [first.1] at does
      exact (ih s₁ host₁ level here.right second).after
        (reaches_of_executeAll here.left straight does)

/-- Nodes that end without a fault end under the trail that they began with. -/
theorem trail_of_done {trail trail' : List Handle} {fuel : Nat} {nodes : List Node} {s s' : Store}
    {host host' : σ} (h : p.evalUnder trail fuel nodes s host = some (.done s' host', trail')) :
    trail' = trail := by
  -- Nodes after others begin under the trail of those, so only what ends them matters.
  have goOn {o : Option (Sighting σ)} {next : Store → σ → Option (Sighting σ)} {trail : List Handle}
      (ih : ∀ s host, next s host = some (.done s' host', trail') → trail' = trail)
      (h : Sighting.andThen o next = some (.done s' host', trail')) : trail' = trail := by
    rcases Sighting.andThen_eq_some h with ⟨-, fails⟩ | ⟨s, host, _, -, second⟩
    · cases fails
    · exact ih s host second
  fun_induction p.evalUnder trail fuel nodes s host with
  | case1 trail fuel s host =>
    cases h
    rfl
  | case2 trail fuel s host body rest ihBody ihRest => exact goOn ihRest h
  | case4 trail fuel s host body rest i found zero ih => exact ih h
  | case6 trail s host body rest i found nonzero fuel ihBody ihLoop => exact goOn ihLoop h
  | case9 trail s host rest procedure s' callee fuel ihBody ihRest => exact goOn ihRest h
  | case10 trail fuel s host leaf rest noSequence noLoop noCall ih => exact goOn ih h
  | case3 | case5 | case7 | case8 => cases h

/-- A run ends while the units are active at which evaluation ends. -/
theorem stops_of_main (emitted : p.Emitted code) (short : code.Short) (ordered : p.Ordered)
    {fuel : Nat} {host : σ} {o : Outcome σ} {trail : List Handle}
    (h : p.evalUnder [.missing] fuel p.main p.start host = some (o, trail)) :
    Stops code {} host trail := by
  obtain ⟨k, base, start, body, last⟩ := exists_main emitted host
  refine Stops.after start ?_
  cases o with
  | fault cause s left => exact stops_of_evalUnder emitted short ordered rfl body h
  | done s left =>
    have level : ([] : List Frame).length + 1 = [Handle.missing].length := rfl
    obtain ⟨j, reached⟩ := reaches_of_evalUnder emitted short level body h
    refine Stops.after reached ?_
    rw [trail_of_done h]
    have room : ([] : List Int32).length < stackLimit := by simp [stackLimit]
    have load := Bytecode.Has.left (a := [.loadPointer, .loadCell]) last
    have final := Bytecode.Has.right (a := [.loadPointer, .loadCell]) last
    cases found : s.position? with
    | none => exact stops_of_executeAll load (by decide) (executeAll_load_outside found room)
    | some i =>
      have value : executeAll code [.loadPointer, .loadCell] (s.machine [] []) left =
          .next (s.machine [s.cell i] []) left := executeAll_load found room
      have more := reaches_of_executeAll load (by decide) value
      exact ⟨_, _, _, _, more, .inr ⟨_, _, step_of_has final (by decide) _ left⟩, trail_stand ..⟩

/-- A program can be compiled just when nothing is wrong with its main body and its procedures. -/
theorem exists_compile_iff (p : Program) :
    (∃ code, p.compile = .ok code) ↔
      Node.checkAll .standard p.main = .ok () ∧
      checkProcedures .standard 0 p.procedures = .ok () := by
  have main : p.checkMain .standard = Node.checkAll .standard p.main := by
    simp only [checkMain, InstructionSet.check_standard]
    cases Node.checkAll .standard p.main <;> rfl
  unfold compile compileFor
  rw [main]
  cases Node.checkAll .standard p.main with
  | error e => exact ⟨fun ⟨_, h⟩ => (nomatch h), fun h => (nomatch h.1)⟩
  | ok _ =>
    cases checkProcedures .standard 0 p.procedures with
    | error e => exact ⟨fun ⟨_, h⟩ => (nomatch h), fun h => (nomatch h.2)⟩
    | ok _ => exact ⟨fun _ => ⟨rfl, rfl⟩, fun _ => ⟨_, rfl⟩⟩

/-- A procedure comes next, and nothing is wrong with it or those behind it. -/
theorem checkProcedures_cons_eq_ok_iff {next : Int} {q : Procedure} {rest : List Procedure} :
    checkProcedures .standard next (q :: rest) = .ok () ↔
      q.id = next ∧ Node.checkAll .standard q.body = .ok () ∧
        checkProcedures .standard (next + 1) rest = .ok () := by
  rw [checkProcedures]
  by_cases place : q.id = next
  · rw [if_neg (by simp [place]), InstructionSet.check_standard]
    cases Node.checkAll .standard q.body with
    | error e => exact ⟨nofun, fun h => (nomatch h.2.1)⟩
    | ok _ => exact ⟨fun h => ⟨place, rfl, h⟩, fun h => h.2.2⟩
  · rw [if_pos place]
    exact ⟨nofun, fun h => absurd h.1 place⟩

/-- Programs that can be compiled have their procedures at the places of their numbers. -/
theorem ordered_of_compile (compiled : p.compile = .ok code) : p.Ordered := by
  have numbered (next : Nat) (procedures : List Procedure)
      (checked : checkProcedures .standard next procedures = .ok ()) (id : Nat) (q : Procedure)
      (found : procedures[id]? = some q) : q.id = (next + id : Nat) := by
    induction procedures generalizing next id with
    | nil => cases found
    | cons first rest ih =>
      obtain ⟨place, -, later⟩ := checkProcedures_cons_eq_ok_iff.1 checked
      cases id with
      | zero =>
        cases found
        exact place
      | succ id =>
        rw [ih (next + 1) later id found]
        omega
  intro id q found
  have number := numbered 0 p.procedures ((exists_compile_iff p).1 ⟨code, compiled⟩).2 id q found
  rwa [Nat.zero_add] at number

end Program

/-! ## Runs -/

namespace Machine

variable {σ : Type} [Host σ] {code : Bytecode} {m : Machine} {host : σ} {trail : List Handle}

omit [Host σ] in
/-- The end of a run shows a behaviour, and its fault, if there is one, came while the units of a
trail were active. -/
def Ending.Sights (e : Ending σ) (b : Behaviour σ) (trail : List Handle) : Prop :=
  e.Shows b ∧ ∀ report m host f, e = .done report m host → report.fault = some f →
    f.trace.map Fault.Entry.unit = trail

/-- The fault of a run names the units that are active at its end. -/
theorem Stops.run_done (stops : Stops code m host trail) :
    ∃ limit report m' left, m.run code limit host = .done report m' left ∧
      ∀ f, report.fault = some f → f.trace.map Fault.Entry.unit = trail := by
  obtain ⟨k, m₁, host₁, m₂, reached, stopped, rfl⟩ := stops
  have first := steps_of_reaches reached 1
  refine ⟨k + 1, ?_⟩
  rw [run, first, steps]
  rcases stopped with ⟨cause, left, step⟩ | ⟨result, left, step⟩
  · rw [step]
    refine ⟨_, _, _, rfl, ?_⟩
    rintro f ⟨⟩
    rfl
  · rw [step]
    simp only [finish]
    split
    · refine ⟨_, _, _, rfl, ?_⟩
      rintro f ⟨⟩
      rfl
    · exact ⟨_, _, _, rfl, fun f none => by cases none⟩

end Machine

namespace Program

open Machine

variable {σ : Type} [Host σ] {p : Program} {code : Bytecode}

/-- The behaviour of a program, if it has one with this fuel, and the units that are active at its
end. -/
def sight (p : Program) (fuel : Nat) (host : σ) : Option (Behaviour σ × List Handle) :=
  (p.evalUnder [.missing] fuel p.main p.start host).map fun r => (r.1.behaviour.flush, r.2)

/-- A sight without its trail is what evaluation shows. -/
theorem map_fst_sight (p : Program) (fuel : Nat) (host : σ) :
    (p.sight fuel host).map Prod.fst = p.eval fuel host := by
  rw [sight, eval, Option.map_map, show 1 = [Handle.missing].length from rfl, ← map_fst_evalUnder,
    Option.map_map]
  rfl

/-- With enough fuel for a program, the machine shows its behaviour and where it ends. -/
theorem run_sights_of_sight (compiled : p.compile = .ok code) (short : code.Short) {fuel : Nat}
    {host : σ} {b : Behaviour σ} {trail : List Handle} (h : p.sight fuel host = some (b, trail)) :
    ∃ limit, (({} : Machine).run code limit host).Sights b trail := by
  have emitted := emitted_of_compile compiled
  obtain ⟨⟨o, trail'⟩, evaluated, same⟩ := Option.map_eq_some_iff.1 h
  cases same
  have behaves : p.eval fuel host = some o.behaviour.flush := by
    rw [← map_fst_sight, h, Option.map_some]
  obtain ⟨limit, shows⟩ := run_shows_of_eval emitted short behaves
  obtain ⟨limit', report, m, left, done, names⟩ :=
    (stops_of_main emitted short (ordered_of_compile compiled) evaluated).run_done
  refine ⟨limit, shows, ?_⟩
  intro report' m' left' f isDone fault
  have ended : ({} : Machine).run code limit host ≠ .unfinished := by
    rw [isDone]
    exact nofun
  have ended' : ({} : Machine).run code limit' host ≠ .unfinished := by
    rw [done]
    exact nofun
  have same := (isDone.symm.trans (run_eq_run ended ended')).trans done
  cases same
  exact names f fault

/-- A run that comes to its end shows the behaviour of the program and where it ends. -/
theorem sights_of_run (compiled : p.compile = .ok code) (short : code.Short) {limit : Nat}
    {host : σ} (ended : ({} : Machine).run code limit host ≠ .unfinished) :
    ∃ b trail, p.sight limit host = some (b, trail) ∧
      (({} : Machine).run code limit host).Sights b trail := by
  cases evaluated : p.sight limit host with
  | none =>
    have none : p.eval limit host = none := by rw [← map_fst_sight, evaluated, Option.map_none]
    exact absurd (run_unfinished_of_eval (emitted_of_compile compiled) short none) ended
  | some r =>
    obtain ⟨b, trail⟩ := r
    obtain ⟨limit', sights⟩ := run_sights_of_sight compiled short evaluated
    have ended' : ({} : Machine).run code limit' host ≠ .unfinished := by
      intro unfinished
      rw [unfinished] at sights
      exact sights.1
    exact ⟨b, trail, rfl, run_eq_run ended ended' ▸ sights⟩

end Program

end TapeLang
