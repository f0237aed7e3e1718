/-
# Rewriting programs

A program is rewritten by replacing some parts of its bodies, at any depth, each as a rule allows.
If a rule is sound, so that the parts it replaces imitate each other, then rewriting keeps what runs
of the compiled program show: `Program.Rewrites.runsAlike`. Only the code changes, and with it where
in the code a fault finds the active units.

Two rules are sound. Setting the cell to zero may be written as the loop that counts it down, which
ends for every value of the cell but leaves another value in the scratch register:
`Program.runsAlike_of_unroll`. And amounts that stand side by side may be added up, in words of 64
bits, though an instruction has room for 32 bits only: `Program.runsAlike_of_merge`.
-/
import TapeLang.Proofs.Imitation

namespace TapeLang

/-! ## Rewritten nodes -/

/-- Nodes of which some parts are replaced, at any depth, each as a rule allows. -/
inductive Node.Rewrites (rule : List Node → List Node → Prop) : List Node → List Node → Prop where
  | nil : Rewrites rule [] []
  | keep (node : Node) {a b : List Node} (rest : Rewrites rule a b) :
    Rewrites rule (node :: a) (node :: b)
  | replace {old new a b : List Node} (allowed : rule old new) (rest : Rewrites rule a b) :
    Rewrites rule (old ++ a) (new ++ b)
  | sequence {body body' a b : List Node} (inside : Rewrites rule body body')
    (rest : Rewrites rule a b) :
    Rewrites rule (.sequence body :: a) (.sequence body' :: b)
  | loop {body body' a b : List Node} (inside : Rewrites rule body body')
    (rest : Rewrites rule a b) :
    Rewrites rule (.loop body :: a) (.loop body' :: b)

/-- A program of which the main body and the bodies of procedures are rewritten. -/
structure Program.Rewrites (rule : List Node → List Node → Prop) (p q : Program) : Prop where
  main : Node.Rewrites rule p.main q.main
  procedures : List.Forall₂ (fun x y => x.id = y.id ∧ Node.Rewrites rule x.body y.body)
    p.procedures q.procedures
  calls : p.calls = q.calls

namespace Node

variable {rule rule' : List Node → List Node → Prop} {a b : List Node}

/-- What is rewritten by a rule is also rewritten by every rule that allows more. -/
theorem Rewrites.mono (weaker : ∀ old new, rule old new → rule' old new) (h : Rewrites rule a b) :
    Rewrites rule' a b := by
  induction h with
  | nil => exact .nil
  | keep node _ ih => exact .keep node ih
  | replace allowed _ ih => exact .replace (weaker _ _ allowed) ih
  | sequence _ _ ihBody ih => exact .sequence ihBody ih
  | loop _ _ ihBody ih => exact .loop ihBody ih

/-- Rewriting can be undone by the rule the other way round. -/
theorem Rewrites.flip (h : Rewrites rule a b) : Rewrites (flip rule) b a := by
  induction h with
  | nil => exact .nil
  | keep node _ ih => exact .keep node ih
  | replace allowed _ ih => exact .replace allowed ih
  | sequence _ _ ihBody ih => exact .sequence ihBody ih
  | loop _ _ ihBody ih => exact .loop ihBody ih

/-- A rule whose two sides end alike and have code either both or not. -/
structure Sound (exact : Bool) (rule : List Node → List Node → Prop) : Prop where
  checked : ∀ old new, rule old new →
    (checkAll .standard old = .ok () ↔ checkAll .standard new = .ok ())
  forth : ∀ old new, rule old new → ∀ p q limit, Imitates exact p q limit old new
  back : ∀ old new, rule old new → ∀ p q limit, Imitates exact p q limit new old

/-- A sound rule is sound from right to left. -/
theorem Sound.flip {exact : Bool} (sound : Sound exact rule) : Sound exact (flip rule) where
  checked old new allowed := (sound.checked new old allowed).symm
  forth old new allowed := sound.back new old allowed
  back old new allowed := sound.forth new old allowed

/-! ### Nodes that have code -/

/-- A list of nodes has code if its first node and all the others have. -/
theorem checkAll_cons_eq_ok_iff (node : Node) (rest : List Node) :
    checkAll .standard (node :: rest) = .ok () ↔
      node.check .standard = .ok () ∧ checkAll .standard rest = .ok () := by
  rw [checkAll]
  cases node.check .standard with
  | error e => exact ⟨nofun, fun h => (nomatch h.1)⟩
  | ok _ => exact ⟨fun h => ⟨rfl, h⟩, fun h => h.2⟩

/-- Two lists of nodes side by side have code if both have. -/
theorem checkAll_append_eq_ok_iff (a b : List Node) :
    checkAll .standard (a ++ b) = .ok () ↔
      checkAll .standard a = .ok () ∧ checkAll .standard b = .ok () := by
  induction a with
  | nil => simp [checkAll]
  | cons node a ih =>
    rw [List.cons_append, checkAll_cons_eq_ok_iff, checkAll_cons_eq_ok_iff, ih, and_assoc]

/-- A loop has code if its body has. -/
theorem check_loop (body : List Node) : (loop body).check .standard = checkAll .standard body := by
  simp only [check, InstructionSet.check_standard]
  cases checkAll .standard body <;> rfl

/-- Rewriting by a sound rule changes nothing about whether there is code. -/
theorem Rewrites.checkAll_iff {exact : Bool} (sound : Sound exact rule) (h : Rewrites rule a b) :
    checkAll .standard a = .ok () ↔ checkAll .standard b = .ok () := by
  induction h with
  | nil => rfl
  | keep node _ ih => rw [checkAll_cons_eq_ok_iff, checkAll_cons_eq_ok_iff, ih]
  | replace allowed _ ih =>
    rw [checkAll_append_eq_ok_iff, checkAll_append_eq_ok_iff, ih, sound.checked _ _ allowed]
  | sequence _ _ ihBody ih =>
    rw [checkAll_cons_eq_ok_iff, checkAll_cons_eq_ok_iff, check, check, ihBody, ih]
  | loop _ _ ihBody ih =>
    rw [checkAll_cons_eq_ok_iff, checkAll_cons_eq_ok_iff, check_loop, check_loop, ihBody, ih]

end Node

/-! ## Rewritten programs -/

namespace Imitates

variable {exact : Bool} {rule : List Node → List Node → Prop} {p q : Program}

/-- Rewritten nodes imitate the nodes they come from. -/
theorem of_rewrites (sound : Node.Sound exact rule) (rewritten : p.Rewrites rule q) (limit : Nat)
    {a b : List Node} (h : Node.Rewrites rule a b) : Imitates exact p q limit a b := by
  -- A call takes fuel, so the bodies of procedures come from smaller limits; all that stands in the
  -- nodes themselves comes from the induction over how they are rewritten.
  induction limit using Nat.strong_induction_on generalizing a b with
  | _ limit ih =>
    have bodies : List.Forall₂
        (fun x y => x.id = y.id ∧ ∀ less < limit, Imitates exact p q less x.body y.body)
        p.procedures q.procedures :=
      rewritten.procedures.imp fun x y h => ⟨h.1, fun less isLess => ih less isLess h.2⟩
    clear ih
    induction h with
    | nil => exact nil
    | keep node _ ih => exact append (refl bodies [node]) ih
    | replace allowed _ ih => exact append (sound.forth _ _ allowed p q limit) ih
    | sequence _ _ ihBody ih => exact append ihBody.sequence ih
    | loop _ _ ihBody ih => exact append ihBody.loop ih

end Imitates

/-- Behaviours that are alike: the same result, the same fault and the same host, and alike
stores. -/
structure Behaviour.Agrees {σ : Type} (exact : Bool) (b b' : Behaviour σ) : Prop where
  result : b.result = b'.result
  fault : b.fault = b'.fault
  store : b.store.Agrees exact b'.store
  host : b.host = b'.host

/-- Agreement of behaviours is transitive. -/
theorem Behaviour.Agrees.trans {σ : Type} {exact : Bool} {b b' b'' : Behaviour σ}
    (first : b.Agrees exact b') (second : b'.Agrees exact b'') : b.Agrees exact b'' :=
  ⟨first.result.trans second.result, first.fault.trans second.fault, first.store.trans second.store,
    first.host.trans second.host⟩

/-- Behaviours that agree in the scratch register as well are the same. -/
theorem Behaviour.Agrees.eq {σ : Type} {b b' : Behaviour σ} (same : b.Agrees true b') : b = b' := by
  cases b
  cases b'
  obtain ⟨rfl, rfl, store, rfl⟩ := same
  cases store.eq
  rfl

/-- Outcomes that agree show behaviours that agree. -/
theorem Outcome.Agrees.behaviour {σ : Type} {exact : Bool} {o o' : Outcome σ}
    (same : o.Agrees exact o') : o.behaviour.Agrees exact o'.behaviour := by
  cases same with
  | fault same => exact ⟨rfl, rfl, same, rfl⟩
  | @done s t host same =>
    simp only [Outcome.behaviour, same.position?, same.outside]
    cases s.position? with
    | none => exact ⟨rfl, rfl, same, rfl⟩
    | some i => exact ⟨(same.cell i).symm, rfl, same, rfl⟩

/-- Behaviours that agree still do after the last flush, which sees the host alone. -/
theorem Behaviour.Agrees.flush {σ : Type} [Host σ] {exact : Bool} {b b' : Behaviour σ}
    (same : b.Agrees exact b') : b.flush.Agrees exact b'.flush := by
  unfold Behaviour.flush
  rw [← same.fault, ← same.host]
  rcases b with ⟨_, _ | cause, _, host⟩
  · rcases Host.flush host with ⟨reason | _, left⟩
    · exact ⟨same.result, rfl, same.store, rfl⟩
    · exact ⟨same.result, rfl, same.store, rfl⟩
  · rcases Host.flush host with ⟨_, left⟩
    exact ⟨same.result, rfl, same.store, rfl⟩

namespace Machine

variable {σ : Type}

/-- Machines whose storage is the same but for the scratch register, and if `exact` in that as
well. -/
structure Agrees (exact : Bool) (m m' : Machine) : Prop where
  tape : m.tape = m'.tape
  pointer : m.pointer = m'.pointer
  table : m.table = m'.table
  lastKey : m.lastKey = m'.lastKey
  scratch : exact = true → m.scratch = m'.scratch

/-- Runs that are over and ended alike: with the same result, and the same fault if there is one,
which came while the same units were active; storage and host are left the same. -/
inductive Ending.Agrees (exact : Bool) : Ending σ → Ending σ → Prop where
  | done {report report' : Report} {m m' : Machine} {host : σ}
    (result : report.result = report'.result)
    (cause : report.fault.map Fault.cause = report'.fault.map Fault.cause)
    (units : report.fault.map (fun f => f.trace.map Fault.Entry.unit) =
      report'.fault.map fun f => f.trace.map Fault.Entry.unit)
    (machine : m.Agrees exact m') : Agrees exact (.done report m host) (.done report' m' host)

/-- Agreement of endings is symmetric. -/
theorem Ending.Agrees.symm {exact : Bool} {e e' : Ending σ} (same : e.Agrees exact e') :
    e'.Agrees exact e := by
  obtain ⟨result, cause, units, machine⟩ := same
  exact .done result.symm cause.symm units.symm
    ⟨machine.tape.symm, machine.pointer.symm, machine.table.symm, machine.lastKey.symm,
      fun isExact => (machine.scratch isExact).symm⟩

/-- Machines agree if the stores that they keep do. -/
theorem Keeps.agrees {exact : Bool} {m m' : Machine} {s s' : Store} (keeps : m.Keeps s)
    (keeps' : m'.Keeps s') (same : s.Agrees exact s') : m.Agrees exact m' where
  tape := by rw [keeps.tape, keeps'.tape, same.tape]
  pointer := by rw [keeps.pointer, keeps'.pointer, same.pointer]
  table := by rw [keeps.table, keeps'.table, same.registry]
  lastKey := by rw [keeps.lastKey, keeps'.lastKey, same.lastKey]
  scratch := by
    intro isExact
    rw [keeps.scratch, keeps'.scratch, same.scratch isExact]

/-- Runs that show behaviours which are alike, under the same trail, ended alike. -/
theorem Ending.Sights.agrees {exact : Bool} {e e' : Ending σ} {b b' : Behaviour σ}
    {trail : List Handle} (sights : e.Sights b trail) (sights' : e'.Sights b' trail)
    (same : b.Agrees exact b') : e.Agrees exact e' := by
  obtain ⟨shows, units⟩ := sights
  obtain ⟨shows', units'⟩ := sights'
  cases e with
  | broken | unfinished => exact shows.elim
  | done report m host =>
    cases e' with
    | broken | unfinished => exact shows'.elim
    | done report' m' host' =>
      obtain ⟨result, cause, keeps, rfl⟩ := shows
      obtain ⟨result', cause', keeps', rfl⟩ := shows'
      have causes : report.fault.map Fault.cause = report'.fault.map Fault.cause := by
        rw [cause, cause', same.fault]
      rw [same.host] at *
      refine .done (by rw [result, result', same.result]) causes ?_ (keeps.agrees keeps' same.store)
      cases fault : report.fault with
      | none =>
        rw [fault] at causes
        rw [Option.map_eq_none_iff.1 causes.symm]
      | some f =>
        rw [fault] at causes
        obtain ⟨f', fault', -⟩ := Option.map_eq_some_iff.1 causes.symm
        rw [fault', Option.map_some, Option.map_some, units _ _ _ f rfl fault,
          units' _ _ _ f' rfl fault']

end Machine

/-- Two bytecodes run alike on new machines: both runs come to no end, or both are over and ended
alike. A host may record what is asked of it, so leaving it the same means the same reads and writes
in the same order. -/
structure Bytecode.RunsAlike {σ : Type} [Host σ] (exact : Bool) (code code' : Bytecode) (host : σ) :
    Prop where
  forth : ∀ limit, ({} : Machine).run code limit host ≠ .unfinished →
    ∃ limit',
      (({} : Machine).run code limit host).Agrees exact (({} : Machine).run code' limit' host)
  back : ∀ limit', ({} : Machine).run code' limit' host ≠ .unfinished →
    ∃ limit,
      (({} : Machine).run code limit host).Agrees exact (({} : Machine).run code' limit' host)

namespace Program

variable {exact : Bool} {p q r : Program} {code code' : Bytecode}

/-- Wherever a program ends, another one ends alike, under the same trail. -/
def EndsAlike (exact : Bool) (p q : Program) : Prop :=
  ∀ ⦃σ : Type⦄ [Host σ] ⦃fuel : Nat⦄ ⦃host : σ⦄ ⦃b : Behaviour σ⦄ ⦃trail : List Handle⦄,
    p.sight fuel host = some (b, trail) →
      ∃ fuel' b', q.sight fuel' host = some (b', trail) ∧ b.Agrees exact b'

/-- What ends like a program that ends like a third ends like the third. -/
theorem EndsAlike.trans (first : EndsAlike exact p q) (second : EndsAlike exact q r) :
    EndsAlike exact p r := by
  intro σ _ fuel host b trail sighted
  obtain ⟨fuel', b', sighted', same⟩ := first sighted
  obtain ⟨fuel'', b'', sighted'', same'⟩ := second sighted'
  exact ⟨fuel'', b'', sighted'', same.trans same'⟩

/-- Where a run of a program is over, a run of one that ends alike is over as well and ended
alike. -/
theorem EndsAlike.run_agrees {σ : Type} [Host σ] (h : EndsAlike exact p q)
    (compiled : p.compile = .ok code) (compiled' : q.compile = .ok code') (short : code.Short)
    (short' : code'.Short) {limit : Nat} {host : σ}
    (ended : ({} : Machine).run code limit host ≠ .unfinished) :
    ∃ limit',
      (({} : Machine).run code limit host).Agrees exact (({} : Machine).run code' limit' host) := by
  obtain ⟨b, trail, sighted, sights⟩ := sights_of_run compiled short ended
  obtain ⟨fuel', b', sighted', same⟩ := h sighted
  obtain ⟨limit', sights'⟩ := run_sights_of_sight compiled' short' sighted'
  exact ⟨limit', sights.agrees sights' same⟩

end Program

/-- Programs of which each ends alike wherever the other one ends run alike. -/
theorem Bytecode.RunsAlike.of_endsAlike {σ : Type} [Host σ] {exact : Bool} {p q : Program}
    {code code' : Bytecode} (forth : Program.EndsAlike exact p q)
    (back : Program.EndsAlike exact q p) (compiled : p.compile = .ok code)
    (compiled' : q.compile = .ok code') (short : code.Short) (short' : code'.Short) (host : σ) :
    code.RunsAlike exact code' host where
  forth _ ended := forth.run_agrees compiled compiled' short short' ended
  back _ ended := by
    obtain ⟨limit, agrees⟩ := back.run_agrees compiled' compiled short' short ended
    exact ⟨limit, agrees.symm⟩

namespace Program.Rewrites

variable {σ : Type} [Host σ] {exact : Bool} {rule : List Node → List Node → Prop} {p q : Program}
  {code code' : Bytecode}

/-- A rewriting undone is a rewriting by the rule from right to left. -/
theorem flip (h : p.Rewrites rule q) : q.Rewrites (flip rule) p where
  main := h.main.flip
  procedures := List.Forall₂.flip (h.procedures.imp fun _ _ h => ⟨h.1.symm, h.2.flip⟩)
  calls := h.calls.symm

/-- A program rewritten by a rule is also rewritten by every rule that allows more. -/
theorem mono {rule' : List Node → List Node → Prop}
    (weaker : ∀ old new, rule old new → rule' old new) (h : p.Rewrites rule q) :
    p.Rewrites rule' q where
  main := h.main.mono weaker
  procedures := h.procedures.imp fun _ _ h => ⟨h.1, h.2.mono weaker⟩
  calls := h.calls

/-- A rewritten program begins with the same store. -/
theorem start_eq (h : p.Rewrites rule q) : p.start = q.start := by
  have empty : p.procedures.isEmpty = q.procedures.isEmpty := by
    rw [Bool.eq_iff_iff, List.isEmpty_iff_length_eq_zero, List.isEmpty_iff_length_eq_zero,
      h.procedures.length_eq]
  have dispatches : p.dispatches = q.dispatches := by
    rw [Program.dispatches, h.calls, empty, ← Program.dispatches]
  unfold start
  rw [dispatches]

/-- Procedures with code still have it after a rewriting of their bodies by a sound rule. -/
theorem checkProcedures_of_forall₂ (sound : Node.Sound exact rule)
    {procedures procedures' : List Procedure}
    (related : List.Forall₂ (fun x y => x.id = y.id ∧ Node.Rewrites rule x.body y.body)
      procedures procedures') {next : Int}
    (checked : checkProcedures .standard next procedures = .ok ()) :
    checkProcedures .standard next procedures' = .ok () := by
  induction related generalizing next with
  | nil => rfl
  | cons first _ ih =>
    obtain ⟨place, body, later⟩ := checkProcedures_cons_eq_ok_iff.1 checked
    exact checkProcedures_cons_eq_ok_iff.2
      ⟨first.1.symm.trans place, (first.2.checkAll_iff sound).1 body, ih later⟩

/-- A rewritten program can be compiled if the program can. -/
theorem exists_compile (h : p.Rewrites rule q) (sound : Node.Sound exact rule)
    (compiled : p.compile = .ok code) : ∃ code', q.compile = .ok code' := by
  obtain ⟨main, procedures⟩ := (exists_compile_iff p).1 ⟨code, compiled⟩
  exact (exists_compile_iff q).2
    ⟨(h.main.checkAll_iff sound).1 main, checkProcedures_of_forall₂ sound h.procedures procedures⟩

/-- A program compiles if and only if one that a sound rule rewrites it to does. -/
theorem exists_compile_iff (h : p.Rewrites rule q) (sound : Node.Sound exact rule) :
    (∃ code, p.compile = .ok code) ↔ ∃ code', q.compile = .ok code' := by
  constructor
  · rintro ⟨code, compiled⟩
    exact h.exists_compile sound compiled
  · rintro ⟨code', compiled'⟩
    exact h.flip.exists_compile sound.flip compiled'

/-- Wherever a program ends, a rewritten one ends alike. -/
theorem endsAlike (h : p.Rewrites rule q) (sound : Node.Sound exact rule) :
    EndsAlike exact p q := by
  intro σ _ fuel host b trail sighted
  obtain ⟨⟨o, trail'⟩, evaluated, same⟩ := Option.map_eq_some_iff.1 sighted
  cases same
  obtain ⟨o', ⟨fuel', ends⟩, alike⟩ :=
    Imitates.of_rewrites sound h fuel h.main le_rfl (.refl exact p.start) evaluated
  rw [h.start_eq] at ends
  refine ⟨fuel', _, ?_, alike.behaviour.flush⟩
  rw [Program.sight, ends, Option.map_some]

/-- Rewriting by a sound rule does not change what a run shows. -/
theorem runsAlike (h : p.Rewrites rule q) (sound : Node.Sound exact rule)
    (compiled : p.compile = .ok code) (compiled' : q.compile = .ok code') (short : code.Short)
    (short' : code'.Short) (host : σ) : code.RunsAlike exact code' host :=
  .of_endsAlike (h.endsAlike sound) (h.flip.endsAlike sound.flip) compiled compiled' short
    short' host

end Program.Rewrites

/-! ## Counting down to zero -/

namespace Store

variable {σ : Type} [Host σ] {s : Store} {i : Fin 30000}

/-- Stores a sum in a cell, and keeps it in the scratch register. -/
def storeSum (s : Store) (i : Fin 30000) (value : Int32) : Store :=
  { s.setCell i value with scratch := value }

@[simp] theorem position?_storeSum (s : Store) (i : Fin 30000) (value : Int32) :
    (s.storeSum i value).position? = s.position? := rfl

/-- The sum that was stored is the value of the cell. -/
@[simp] theorem cell_storeSum (s : Store) (i : Fin 30000) (value : Int32) :
    (s.storeSum i value).cell i = value := by
  simp [cell, storeSum, setCell]

/-- Of two sums stored in one cell the second is left. -/
@[simp] theorem storeSum_storeSum (s : Store) (i : Fin 30000) (v w : Int32) :
    (s.storeSum i v).storeSum i w = s.storeSum i w := by
  simp [storeSum, setCell]

/-- What is in a cell and in the scratch register does not matter when the cell is set. -/
theorem setCell_storeSum_agrees (s : Store) (i : Fin 30000) (v w : Int32) :
    (s.setCell i w).Agrees false ((s.storeSum i v).setCell i w) :=
  ⟨by simp [storeSum, setCell], rfl, rfl, rfl, nofun⟩

/-- At a position on the tape, an amount is added to the cell. -/
theorem perform_amend (found : s.position? = some i) (delta : Int) (host : σ) :
    s.perform host (.amend delta) = .done (s.storeSum i (s.cell i + Int32.ofInt delta)) host := by
  simp only [perform, atCell, found, storeSum]

/-- At a position on the tape, a zero clears the cell. -/
theorem perform_zero (found : s.position? = some i) (host : σ) :
    s.perform host .zero = .done (s.setCell i 0) host := by
  simp only [perform, atCell, found]

/-- Outside the tape, a zero is a fault. -/
theorem perform_zero_outside (found : s.position? = none) (host : σ) :
    s.perform host .zero = .fault s.outside s host := by
  simp only [perform, atCell, found]

end Store

/-- Writes setting the cell to zero as the loop that counts it down. -/
inductive Node.Unroll : List Node → List Node → Prop where
  | zero : Unroll [.zero] [.loop [.amend (-1)]]

/-- Counting a cell down ends with zero. A negative value is first counted down to the least one and
wraps around there, so what decreases is the value without its sign. -/
theorem Program.ends_countdown {σ : Type} [Host σ] (p : Program) (trail : List Handle) {s : Store}
    (host : σ) {i : Fin 30000} (found : s.position? = some i) :
    ∃ s', p.Ends trail [.loop [.amend (-1)]] s host (.done s' host, trail) ∧
      (s.setCell i 0).Agrees false s' := by
  induction size : (s.cell i).toBitVec.toNat generalizing s with
  | zero =>
    have zero : s.cell i = 0 := Int32.toBitVec_inj.1 (BitVec.eq_of_toNat_eq size)
    refine ⟨s, ⟨0, ?_⟩, ?_⟩
    · rw [evalUnder_loop_zero found zero, evalUnder]
    · have unchanged : s.setCell i (s.cell i) = s := by simp [Store.cell, Store.setCell]
      rw [← zero, unchanged]
      exact .refl false s
  | succ n ih =>
    have nonzero : ¬ s.cell i = 0 := by
      intro zero
      rw [zero] at size
      cases size
    have less : (s.cell i + Int32.ofInt (-1)).toBitVec.toNat = n := by
      have one : (Int32.ofInt (-1)).toBitVec = -1#32 := rfl
      rw [Int32.toBitVec_add, one]
      bv_omega
    generalize counted : s.cell i + Int32.ofInt (-1) = value at less
    have round : p.Ends trail [.amend (-1)] s host (.done (s.storeSum i value) host, trail) := by
      refine ⟨0, ?_⟩
      rw [evalUnder_single (by simp) (by simp) (by simp), Store.perform_amend found, counted]
    have there : (s.storeSum i value).position? = some i := by rw [Store.position?_storeSum, found]
    obtain ⟨s', ends, same⟩ := ih there (by rw [Store.cell_storeSum, less])
    exact ⟨s', round.round found nonzero ends, (s.setCell_storeSum_agrees i value 0).trans same⟩

/-- Replacing a zero by the loop that counts down is sound up to the scratch register. -/
theorem Node.Unroll.sound : Node.Sound false Node.Unroll where
  checked := by
    rintro _ _ ⟨⟩
    exact ⟨fun _ => rfl, fun _ => rfl⟩
  forth := by
    rintro _ _ ⟨⟩ p q limit σ _ fuel trail s t host r _ same h
    rw [Program.evalUnder_single (by simp) (by simp) (by simp)] at h
    cases h
    cases found : s.position? with
    | none =>
      rw [Store.perform_zero_outside found]
      refine ⟨_, ⟨0, Program.evalUnder_loop_outside (same.position?.trans found)⟩, ?_⟩
      rw [same.outside]
      exact .fault same
    | some i =>
      rw [Store.perform_zero found]
      obtain ⟨t', ends, same'⟩ := q.ends_countdown trail host (same.position?.trans found)
      exact ⟨_, ends, .done ((same.setCell i 0).trans same')⟩
  back := by
    rintro _ _ ⟨⟩ p q limit σ _ fuel trail s t host r _ same h
    have zero : q.Ends trail [.zero] t host (t.perform host .zero, trail) :=
      ⟨0, Program.evalUnder_single (by simp) (by simp) (by simp)⟩
    cases found : s.position? with
    | none =>
      rw [Program.evalUnder_loop_outside found] at h
      cases h
      rw [Store.perform_zero_outside (same.position?.trans found), same.outside] at zero
      exact ⟨_, zero, .fault same⟩
    | some i =>
      obtain ⟨s', ends, same'⟩ := p.ends_countdown trail host found
      cases Program.Ends.unique ⟨fuel, h⟩ ends
      rw [Store.perform_zero (same.position?.trans found)] at zero
      exact ⟨_, zero, .done (same'.symm.trans (same.setCell i 0))⟩

namespace Program

variable {p q : Program} {code : Bytecode}

/-- The code of a loop that counts down comes to its end with the cell at zero, whatever the cell
holds. -/
theorem reaches_countdown {σ : Type} [Host σ] (emitted : p.Emitted code) (short : code.Short)
    {unit : Option Nat} {base : Nat}
    (here : code.Has unit base (Node.instructions base [.loop [.amend (-1)]]))
    (callers : List Frame) {s : Store} {i : Fin 30000} (found : s.position? = some i) (host : σ) :
    ∃ k s', (s.setCell i 0).Agrees false s' ∧
      Machine.Reaches code k ((s.machine [] callers).stand unit base, host)
        ((s'.machine [] callers).stand unit
          (base + Instruction.span (Node.instructions base [.loop [.amend (-1)]])), host) := by
  obtain ⟨s', ⟨fuel, ends⟩, same⟩ :=
    p.ends_countdown (.missing :: callers.map Frame.handle) host found
  have level : callers.length + 1 = (Handle.missing :: callers.map Frame.handle).length := by simp
  obtain ⟨k, reached⟩ := reaches_of_evalUnder emitted short level here ends
  exact ⟨k, s', same, reached⟩

/-- **Zero loops.** However many of the nodes that set a cell to zero are written as loops that
count it down, the program can be compiled as well, its runs come to an end just when those of the
original do, and they end alike but for the scratch register. The code of each such loop comes to
its end from every store in which the pointer is on the tape: no value of the cell, negative or not,
makes it go on for ever. -/
theorem runsAlike_of_unroll (compiled : p.compile = .ok code)
    (unrolled : p.Rewrites Node.Unroll q) :
    ∃ code', q.compile = .ok code' ∧ (code.Short → code'.Short → ∀ {σ : Type} [Host σ] (host : σ),
      code.RunsAlike false code' host ∧
      ∀ unit base callers (s : Store) i,
        code'.Has unit base (Node.instructions base [.loop [.amend (-1)]]) → s.position? = some i →
        ∃ k s', (s.setCell i 0).Agrees false s' ∧
          Machine.Reaches code' k ((s.machine [] callers).stand unit base, host)
            ((s'.machine [] callers).stand unit
              (base + Instruction.span (Node.instructions base [.loop [.amend (-1)]])), host)) := by
  obtain ⟨code', compiled'⟩ := unrolled.exists_compile Node.Unroll.sound compiled
  refine ⟨code', compiled', fun short short' σ _ host => ⟨?_, ?_⟩⟩
  · exact unrolled.runsAlike Node.Unroll.sound compiled compiled' short short' host
  · intro unit base callers s i here found
    exact reaches_countdown (emitted_of_compile compiled') short' here callers found host

/-- The zero in a loop is unrolled, and that in the procedure is kept; the cell is negative. -/
theorem runsAlike_of_unroll_in_loop :
    ∃ code code', compile { main := [.amend (-3), .loop [.zero], .register 0, .call]
                            procedures := [⟨0, [.zero]⟩] } = .ok code ∧
      compile { main := [.amend (-3), .loop [.loop [.amend (-1)]], .register 0, .call]
                procedures := [⟨0, [.zero]⟩] } = .ok code' ∧
      code.Short ∧ code'.Short ∧ code.RunsAlike false code' ({} : Host.Script) := by
  obtain ⟨code', compiled', alike⟩ := runsAlike_of_unroll
    (p := { main := [.amend (-3), .loop [.zero], .register 0, .call]
            procedures := [⟨0, [.zero]⟩] })
    (q := { main := [.amend (-3), .loop [.loop [.amend (-1)]], .register 0, .call]
            procedures := [⟨0, [.zero]⟩] }) rfl
    ⟨.keep _ (.loop (.replace Node.Unroll.zero .nil) (.keep _ (.keep _ .nil))),
      .cons ⟨rfl, .keep _ .nil⟩ .nil, rfl⟩
  have short : code'.Short := by
    obtain rfl := Except.ok.inj compiled'
    exact ⟨by decide, by decide⟩
  exact ⟨_, code', rfl, compiled', ⟨by decide, by decide⟩, short,
    (alike ⟨by decide, by decide⟩ short _).1⟩

end Program

/-! ## Amounts side by side -/

/-- Nodes with an amount that is added, in words of 32 bits, to something that does not hang on
it. -/
structure Node.Adds (make : Int → Node) : Prop where
  noSequence : ∀ delta body, make delta ≠ .sequence body
  noLoop : ∀ delta body, make delta ≠ .loop body
  noCall : ∀ delta, make delta ≠ .call
  checked : ∀ delta, (make delta).check .standard = .ok ()
  twice : ∀ {σ : Type} [Host σ] (s : Store) (host : σ) (a b : Int),
    Outcome.andThen (some (s.perform host (make a)))
      (fun s host => some (s.perform host (make b))) = some (s.perform host (make (a + b)))
  word : ∀ {σ : Type} [Host σ] (s : Store) (host : σ) (a b : Int), Int32.ofInt a = Int32.ofInt b →
    s.perform host (make a) = s.perform host (make b)

namespace Node

/-- Moves of the pointer add up, in words of 32 bits. -/
theorem adds_move : Adds .move where
  noSequence := nofun
  noLoop := nofun
  noCall := nofun
  checked _ := by simp only [check, InstructionSet.check_standard]
  twice s host a b := by
    simp only [Store.perform, Outcome.andThen, Int32.ofInt_add, Int32.add_assoc]
  word s host a b same := by
    simp only [Store.perform, same]

/-- Amounts of a cell add up, in words of 32 bits. -/
theorem adds_amend : Adds .amend where
  noSequence := nofun
  noLoop := nofun
  noCall := nofun
  checked _ := by simp only [check, InstructionSet.check_standard]
  twice s host a b := by
    cases found : s.position? with
    | none => simp only [Store.perform, Store.atCell, found, Outcome.andThen]
    | some i =>
      have there (value : Int32) : (s.storeSum i value).position? = some i := by
        rw [Store.position?_storeSum, found]
      rw [Store.perform_amend found, Store.perform_amend found]
      simp only [Outcome.andThen]
      rw [Store.perform_amend (there _), Store.cell_storeSum, Store.storeSum_storeSum,
        Int32.ofInt_add, Int32.add_assoc]
  word s host a b same := by
    simp only [Store.perform, same]

/-- Adds up amounts that stand side by side; the sum has to be right in words of 32 bits only. -/
inductive Sums : List Node → List Node → Prop where
  | add {make : Int → Node} (adds : Adds make) (first : Int) (deltas : List Int) (total : Int)
    (right : Int32.ofInt total = Int32.ofInt (first + deltas.sum)) :
    Sums ((first :: deltas).map make) [make total]

/-- Amounts side by side do what their sum does. -/
theorem Adds.evalUnder {σ : Type} [Host σ] {make : Int → Node} (adds : Adds make) (p : Program)
    (trail : List Handle) (fuel : Nat) (first : Int) (deltas : List Int) (s : Store) (host : σ) :
    p.evalUnder trail fuel ((first :: deltas).map make) s host =
      some (s.perform host (make (first + deltas.sum)), trail) := by
  induction deltas generalizing first s host with
  | nil =>
    rw [List.sum_nil, Int.add_zero]
    exact Program.evalUnder_single (adds.noSequence first) (adds.noLoop first) (adds.noCall first)
  | cons second deltas ih =>
    rw [List.map_cons,
      Program.evalUnder_leaf (adds.noSequence first) (adds.noLoop first) (adds.noCall first)]
    have twice := adds.twice s host first (second + deltas.sum)
    rw [List.sum_cons]
    cases done : s.perform host (make first) with
    | done s₁ host₁ =>
      rw [done] at twice
      rw [Sighting.andThen, ih]
      simp only [Outcome.andThen, Option.some.injEq] at twice
      rw [twice]
    | fault cause s₁ host₁ =>
      rw [done] at twice
      simp only [Outcome.andThen, Option.some.injEq] at twice
      rw [← twice]
      rfl

/-- Moves and amounts always have code. -/
theorem Adds.checkAll {make : Int → Node} (adds : Adds make) (deltas : List Int) :
    checkAll .standard (deltas.map make) = .ok () := by
  induction deltas with
  | nil => rfl
  | cons delta deltas ih => exact (checkAll_cons_eq_ok_iff ..).2 ⟨adds.checked delta, ih⟩

/-- Replacing a run of amounts by its sum is sound, the scratch register included. -/
theorem Sums.sound (exact : Bool) : Sound exact Sums where
  checked := by
    rintro _ _ ⟨adds, first, deltas, total, -⟩
    exact ⟨fun _ => adds.checkAll [total], fun _ => adds.checkAll _⟩
  forth := by
    rintro _ _ ⟨adds, first, deltas, total, right⟩ p q limit σ _ fuel trail s t host r _ same h
    rw [adds.evalUnder, ← adds.word s host _ _ right] at h
    cases h
    have single : q.Ends trail _ t host _ := ⟨0, adds.evalUnder q trail 0 total [] t host⟩
    rw [List.sum_nil, Int.add_zero] at single
    exact ⟨_, single, same.perform host _⟩
  back := by
    rintro _ _ ⟨adds, first, deltas, total, right⟩ p q limit σ _ fuel trail s t host r _ same h
    have single := adds.evalUnder p trail fuel total [] s host
    rw [List.sum_nil, Int.add_zero] at single
    cases h.symm.trans single
    refine ⟨_, ⟨0, adds.evalUnder q trail 0 first deltas t host⟩, ?_⟩
    rw [← adds.word t host _ _ right]
    exact same.perform host _

/-- Adds up two amounts of the same kind, in words of 64 bits. -/
inductive Merge : List Node → List Node → Prop where
  | amend (a b : Int) : Merge [.amend a, .amend b] [.amend (Word.wrap (a + b))]
  | move (a b : Int) : Merge [.move a, .move b] [.move (Word.wrap (a + b))]

/-- Gathers a run of equal amounts, in words of 64 bits. -/
inductive Gather : List Node → List Node → Prop where
  | amend (n : Nat) (delta : Int) :
    Gather (List.replicate (n + 1) (.amend delta)) [.amend (Word.wrap ((n + 1) * delta))]
  | move (n : Nat) (delta : Int) :
    Gather (List.replicate (n + 1) (.move delta)) [.move (Word.wrap ((n + 1) * delta))]

/-- A word of 64 bits has the low 32 bits of the number. -/
theorem ofInt_wrap (n : Int) : Int32.ofInt (Word.wrap n) = Int32.ofInt n := by
  rw [← Int32.toInt_inj, Int32.toInt_ofInt, Int32.toInt_ofInt, Word.wrap_eq_bmod]
  exact Int.bmod_bmod_of_dvd (by decide)

/-- A pair that is merged is replaced by its sum. -/
theorem sums_of_merge (old new : List Node) (h : Merge old new) : Sums old new := by
  cases h with
  | amend a b => exact .add adds_amend a [b] _ (by rw [ofInt_wrap, List.sum_singleton])
  | move a b => exact .add adds_move a [b] _ (by rw [ofInt_wrap, List.sum_singleton])

/-- A run of equal amounts adds up to a multiple. -/
theorem Sums.run {make : Int → Node} (adds : Adds make) (n : Nat) (delta total : Int)
    (right : Int32.ofInt total = Int32.ofInt ((n + 1) * delta)) :
    Sums (List.replicate (n + 1) (make delta)) [make total] := by
  have sum : delta + (List.replicate n delta).sum = (n + 1) * delta := by
    rw [List.sum_replicate, nsmul_eq_mul]
    ring
  have added := Sums.add adds delta (List.replicate n delta) total (by rw [sum, right])
  rwa [List.map_cons, List.map_replicate, ← List.replicate_succ] at added

/-- A run that is gathered is replaced by its sum. -/
theorem sums_of_gather (old new : List Node) (h : Gather old new) : Sums old new := by
  cases h with
  | amend n delta => exact .run adds_amend n delta _ (ofInt_wrap _)
  | move n delta => exact .run adds_move n delta _ (ofInt_wrap _)

end Node

namespace Program

variable {σ : Type} [Host σ] {p q : Program} {code : Bytecode}

/-- Evaluation ends with a behaviour if and only if it does so with some trail of calls. -/
theorem exists_sight_iff {host : σ} {b : Behaviour σ} :
    (∃ fuel trail, p.sight fuel host = some (b, trail)) ↔ ∃ fuel, p.eval fuel host = some b := by
  constructor
  · rintro ⟨fuel, trail, sighted⟩
    exact ⟨fuel, by rw [← map_fst_sight, sighted, Option.map_some]⟩
  · rintro ⟨fuel, evaluated⟩
    rw [← map_fst_sight] at evaluated
    obtain ⟨⟨_, trail⟩, sighted, rfl⟩ := Option.map_eq_some_iff.1 evaluated
    exact ⟨fuel, trail, sighted⟩

/-- Runs of a program that is rewritten exactly show what the program means. -/
theorem Rewrites.exists_shows_iff {rule : List Node → List Node → Prop} (h : p.Rewrites rule q)
    (sound : Node.Sound true rule) (compiled : q.compile = .ok code) (short : code.Short) (host : σ)
    (b : Behaviour σ) :
    (∃ limit, (({} : Machine).run code limit host).Shows b) ↔
      ∃ fuel, p.eval fuel host = some b := by
  rw [← exists_sight_iff]
  constructor
  · rintro ⟨limit, shows⟩
    have ended : ({} : Machine).run code limit host ≠ .unfinished := by
      intro unfinished
      rw [unfinished] at shows
      exact shows
    obtain ⟨b', trail, sighted, shows', -⟩ := sights_of_run compiled short ended
    cases shows.unique shows'
    obtain ⟨fuel, b', sighted', same⟩ := h.flip.endsAlike sound.flip sighted
    exact ⟨fuel, trail, same.eq ▸ sighted'⟩
  · rintro ⟨fuel, trail, sighted⟩
    obtain ⟨fuel', b', sighted', same⟩ := h.endsAlike sound sighted
    obtain ⟨limit, shows, -⟩ := run_sights_of_sight compiled short sighted'
    exact ⟨limit, same.eq ▸ shows⟩

/-- **Run lengths.** However many pairs of amounts that stand side by side are added up, in words of
64 bits, the program can be compiled as well, its runs come to an end just when those of the
original do, and they end alike, the scratch register included. So a run of any length may be
gathered into one amount: if the gathered program has code that is short enough, its runs show what
the program means operator by operator, also where the code for that would be too long. -/
theorem runsAlike_of_merge (compiled : p.compile = .ok code) :
    (∀ q : Program, p.Rewrites Node.Merge q → ∃ code', q.compile = .ok code' ∧
      (code.Short → code'.Short → ∀ {σ : Type} [Host σ] (host : σ),
        code.RunsAlike true code' host)) ∧
    ∀ q : Program, p.Rewrites Node.Gather q → ∃ code', q.compile = .ok code' ∧
      (code'.Short → ∀ {σ : Type} [Host σ] (host : σ),
        (code.Short → code.RunsAlike true code' host) ∧
        ∀ b : Behaviour σ, (∃ limit, (({} : Machine).run code' limit host).Shows b) ↔
          ∃ fuel, p.eval fuel host = some b) := by
  have sound := Node.Sums.sound true
  refine ⟨fun q merged => ?_, fun q gathered => ?_⟩
  · have summed := merged.mono Node.sums_of_merge
    obtain ⟨code', compiled'⟩ := summed.exists_compile sound compiled
    exact ⟨code', compiled', fun short short' _ _ host =>
      summed.runsAlike sound compiled compiled' short short' host⟩
  · have summed := gathered.mono Node.sums_of_gather
    obtain ⟨code', compiled'⟩ := summed.exists_compile sound compiled
    exact ⟨code', compiled', fun short' _ _ host =>
      ⟨fun short => summed.runsAlike sound compiled compiled' short short' host,
        summed.exists_shows_iff sound compiled' short' host⟩⟩

/-- The sum of the amounts does not fit a word of 64 bits, and is the least one. -/
theorem runsAlike_of_merge_to_least :
    ∃ code code',
      compile { main := [.loop [.amend 0x4000000000000000, .amend 0x4000000000000000], .read] } =
        .ok code ∧
      compile { main := [.loop [.amend (-0x8000000000000000)], .read] } = .ok code' ∧
      code.Short ∧ code'.Short ∧
        code.RunsAlike true code' ({ reads := [.ok 65] } : Host.Script) := by
  obtain ⟨code', compiled', alike⟩ := (runsAlike_of_merge
    (p := { main := [.loop [.amend 0x4000000000000000, .amend 0x4000000000000000], .read] }) rfl).1
    { main := [.loop [.amend (-0x8000000000000000)], .read] }
    ⟨.loop (.replace (Node.Merge.amend 0x4000000000000000 0x4000000000000000) .nil) (.keep _ .nil),
      .nil, rfl⟩
  have short : code'.Short := by
    obtain rfl := Except.ok.inj compiled'
    exact ⟨by decide, by decide⟩
  exact ⟨_, code', rfl, compiled', ⟨by decide, by decide⟩, short,
    alike ⟨by decide, by decide⟩ short _⟩

end Program

end TapeLang
