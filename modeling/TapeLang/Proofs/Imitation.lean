/-
# Programs that imitate each other

Nodes imitate other nodes if, wherever the evaluation of those comes to an end, their own evaluation
does so too and ends alike. What may differ is the scratch register, which a program never reads,
and how much fuel it takes: a loop that counts a cell down does what setting the cell to zero does.

Evaluation goes from nodes to those behind them, `Program.andThen_of_evalUnder_append`, so imitation
is kept by every way in which nodes are put together: one after another, in a sequence, in a loop,
and in the body of a procedure that is called. The fuel of the imitated evaluation bounds the calls,
so the statements have a limit on it.
-/
import TapeLang.Proofs.Trail

namespace TapeLang

/-! ## Evaluation of nodes behind others -/

/-- More fuel for both of two evaluations one after another does not change how they end. -/
theorem Sighting.andThen_mono {σ : Type} {o o' : Option (Sighting σ)}
    {next next' : Store → σ → Option (Sighting σ)} {r : Sighting σ}
    (first : ∀ r, o = some r → o' = some r)
    (second : ∀ s host r, next s host = some r → next' s host = some r)
    (h : andThen o next = some r) : andThen o' next' = some r := by
  rcases o with _ | ⟨⟨s, host⟩ | ⟨cause, s, host⟩, trail⟩
  · cases h
  · rw [first _ rfl]
    exact second s host r h
  · rw [first _ rfl]
    exact h

/-- What follows an evaluation in two parts follows it one part after the other. -/
theorem Sighting.andThen_assoc {σ : Type} (o : Option (Sighting σ))
    (next later : Store → σ → Option (Sighting σ)) :
    andThen (andThen o next) later = andThen o fun s host => andThen (next s host) later := by
  rcases o with _ | ⟨_ | _, _⟩ <;> rfl

/-- Nothing is evaluated after a fault. -/
theorem Sighting.andThen_of_fault {σ : Type} {r : Sighting σ}
    {next : Store → σ → Option (Sighting σ)} (fails : r.1.isFault = true) :
    andThen (some r) next = some r := by
  rcases r with ⟨_ | _, _⟩
  · cases fails
  · rfl

namespace Program

variable {σ : Type} [Host σ] {p : Program} {trail : List Handle} {fuel : Nat} {s : Store} {host : σ}
  {r : Sighting σ}

/-- A node that holds no others is done at once, under the same trail. -/
theorem evalUnder_single {leaf : Node} (noSequence : ∀ body, leaf ≠ .sequence body)
    (noLoop : ∀ body, leaf ≠ .loop body) (noCall : leaf ≠ .call) :
    p.evalUnder trail fuel [leaf] s host = some (s.perform host leaf, trail) := by
  rw [evalUnder_leaf noSequence noLoop noCall]
  cases s.perform host leaf with
  | done => simp only [Sighting.andThen, evalUnder]
  | fault => rfl

/-- A sequence is evaluated as what it holds. -/
theorem evalUnder_sequence {body : List Node} :
    p.evalUnder trail fuel [.sequence body] s host = p.evalUnder trail fuel body s host := by
  rw [evalUnder]
  cases h : p.evalUnder trail fuel body s host with
  | none => rfl
  | some r =>
    rcases r with ⟨⟨s, host⟩ | _, trail'⟩
    · rw [trail_of_done h]
      simp only [Sighting.andThen, evalUnder]
    · rfl

/-- More fuel does not change how evaluation ends. -/
theorem evalUnder_mono {nodes : List Node} (h : p.evalUnder trail fuel nodes s host = some r)
    (more : Nat) : p.evalUnder trail (fuel + more) nodes s host = some r := by
  fun_induction p.evalUnder trail fuel nodes s host generalizing r with
  | case1 trail fuel s host =>
    rw [evalUnder]
    exact h
  | case2 trail fuel s host body rest ihBody ihRest =>
    rw [evalUnder]
    exact Sighting.andThen_mono (fun _ => ihBody) (fun s host _ => ihRest s host) h
  | case3 trail fuel s host body rest outside =>
    rw [evalUnder_loop_outside outside]
    exact h
  | case4 trail fuel s host body rest i found zero ih =>
    rw [evalUnder_loop_zero found zero]
    exact ih h
  | case5 | case8 => cases h
  | case6 trail s host body rest i found nonzero fuel ihBody ihLoop =>
    rw [Nat.succ_add, evalUnder_loop_round found nonzero]
    exact Sighting.andThen_mono (fun _ => ihBody) (fun s host _ => ihLoop s host) h
  | case7 trail fuel s host rest cause s' callee =>
    rw [evalUnder_call_error callee]
    exact h
  | case9 trail s host rest procedure s' callee fuel ihBody ihRest =>
    rw [Nat.succ_add, evalUnder_call_ok callee]
    refine Sighting.andThen_mono (fun _ => ihBody) (fun s host _ h => ?_) h
    rw [Nat.add_right_comm]
    exact ihRest s host h
  | case10 trail fuel s host leaf rest noSequence noLoop noCall ih =>
    rw [evalUnder_leaf noSequence noLoop noCall]
    exact Sighting.andThen_mono (fun _ same => same) (fun s host _ => ih s host) h

/-- More fuel than is enough gives the same result. -/
theorem evalUnder_of_le {nodes : List Node} {more : Nat} (enough : fuel ≤ more)
    (h : p.evalUnder trail fuel nodes s host = some r) :
    p.evalUnder trail more nodes s host = some r := by
  obtain ⟨extra, rfl⟩ := Nat.exists_eq_add_of_le enough
  exact evalUnder_mono h extra

/-- Nodes in front of others are evaluated, and then the others from where they end. -/
theorem andThen_of_evalUnder_append {a b : List Node}
    (h : p.evalUnder trail fuel (a ++ b) s host = some r) :
    Sighting.andThen (p.evalUnder trail fuel a s host)
      (fun s host => p.evalUnder trail fuel b s host) = some r := by
  fun_induction p.evalUnder trail fuel a s host generalizing r with
  | case1 trail fuel s host => exact h
  | case2 trail fuel s host body rest ihBody ihRest =>
    rw [List.cons_append, evalUnder] at h
    rw [Sighting.andThen_assoc]
    exact Sighting.andThen_mono (fun _ same => same) (fun s host _ second => ihRest s host second) h
  | case3 trail fuel s host body rest outside =>
    rw [List.cons_append, evalUnder_loop_outside outside] at h
    exact h
  | case4 trail fuel s host body rest i found zero ih =>
    rw [List.cons_append, evalUnder_loop_zero found zero] at h
    exact ih h
  | case5 trail s host body rest i found nonzero =>
    rw [List.cons_append, evalUnder_loop_none found nonzero] at h
    cases h
  | case6 trail s host body rest i found nonzero fuel ihBody ihLoop =>
    rw [List.cons_append, evalUnder_loop_round found nonzero] at h
    rw [Sighting.andThen_assoc]
    refine Sighting.andThen_mono (fun _ same => same) (fun s host _ second => ?_) h
    -- The rounds of the loop take fuel, which the others would have if they were evaluated by
    -- themselves.
    exact Sighting.andThen_mono (fun _ same => same)
      (fun s host _ others => evalUnder_mono others 1)
      (ihLoop s host second)
  | case7 trail fuel s host rest cause s' callee =>
    rw [List.cons_append, evalUnder_call_error callee] at h
    exact h
  | case8 trail s host rest procedure s' callee =>
    rw [List.cons_append, evalUnder_call_none callee] at h
    cases h
  | case9 trail s host rest procedure s' callee fuel ihBody ihRest =>
    rw [List.cons_append, evalUnder_call_ok callee] at h
    rw [Sighting.andThen_assoc]
    exact Sighting.andThen_mono (fun _ same => same) (fun s host _ second => ihRest s host second) h
  | case10 trail fuel s host leaf rest noSequence noLoop noCall ih =>
    rw [List.cons_append, evalUnder_leaf noSequence noLoop noCall] at h
    rw [Sighting.andThen_assoc]
    exact Sighting.andThen_mono (fun _ same => same) (fun s host _ second => ih s host second) h

/-- Nodes and others behind them have enough fuel with what they take one by one. -/
theorem evalUnder_append_of_andThen {a b : List Node} {more : Nat}
    (h : Sighting.andThen (p.evalUnder trail fuel a s host)
      (fun s host => p.evalUnder trail more b s host) = some r) :
    p.evalUnder trail (fuel + more) (a ++ b) s host = some r := by
  fun_induction p.evalUnder trail fuel a s host generalizing r with
  | case1 trail fuel s host => exact evalUnder_of_le (Nat.le_add_left more fuel) h
  | case2 trail fuel s host body rest ihBody ihRest =>
    rw [Sighting.andThen_assoc] at h
    rw [List.cons_append, evalUnder]
    exact Sighting.andThen_mono (fun _ first => evalUnder_mono first more)
      (fun s host _ second => ihRest s host second) h
  | case3 trail fuel s host body rest outside =>
    rw [List.cons_append, evalUnder_loop_outside outside]
    exact h
  | case4 trail fuel s host body rest i found zero ih =>
    rw [List.cons_append, evalUnder_loop_zero found zero]
    exact ih h
  | case5 | case8 => cases h
  | case6 trail s host body rest i found nonzero fuel ihBody ihLoop =>
    rw [Sighting.andThen_assoc] at h
    rw [List.cons_append, Nat.succ_add, evalUnder_loop_round found nonzero]
    exact Sighting.andThen_mono (fun _ first => evalUnder_mono first more)
      (fun s host _ second => ihLoop s host second) h
  | case7 trail fuel s host rest cause s' callee =>
    rw [List.cons_append, evalUnder_call_error callee]
    exact h
  | case9 trail s host rest procedure s' callee fuel ihBody ihRest =>
    rw [Sighting.andThen_assoc] at h
    rw [List.cons_append, Nat.succ_add, evalUnder_call_ok callee]
    refine Sighting.andThen_mono (fun _ first => evalUnder_mono first more)
      (fun s host _ second => ?_) h
    rw [Nat.add_right_comm]
    exact ihRest s host second
  | case10 trail fuel s host leaf rest noSequence noLoop noCall ih =>
    rw [Sighting.andThen_assoc] at h
    rw [List.cons_append, evalUnder_leaf noSequence noLoop noCall]
    exact Sighting.andThen_mono (fun _ same => same) (fun s host _ second => ih s host second) h

/-! ## Evaluation that comes to an end -/

/-- The evaluation of nodes comes to an end with some fuel. -/
def Ends (p : Program) (trail : List Handle) (nodes : List Node) (s : Store) (host : σ)
    (r : Sighting σ) : Prop :=
  ∃ fuel, p.evalUnder trail fuel nodes s host = some r

namespace Ends

variable {a b body : List Node} {s₁ : Store} {host₁ : σ} {trail₁ : List Handle} {r' : Sighting σ}

/-- Evaluation ends in one way only. -/
theorem unique (h : p.Ends trail a s host r) (h' : p.Ends trail a s host r') : r = r' := by
  obtain ⟨fuel, h⟩ := h
  obtain ⟨fuel', h'⟩ := h'
  have more := evalUnder_of_le (Nat.le_add_right fuel fuel') h
  have more' := evalUnder_of_le (Nat.le_add_left fuel' fuel) h'
  exact Option.some.inj (more.symm.trans more')

/-- Nodes side by side end as the second part does behind the first. -/
theorem append (first : p.Ends trail a s host (.done s₁ host₁, trail₁))
    (second : p.Ends trail b s₁ host₁ r) : p.Ends trail (a ++ b) s host r := by
  obtain ⟨fuel, first⟩ := first
  obtain ⟨more, second⟩ := second
  refine ⟨fuel + more, evalUnder_append_of_andThen ?_⟩
  rw [first]
  exact second

/-- Nodes side by side end with a fault of the first part. -/
theorem append_of_fault (first : p.Ends trail a s host r) (fails : r.1.isFault = true) :
    p.Ends trail (a ++ b) s host r := by
  obtain ⟨fuel, first⟩ := first
  refine ⟨fuel + 0, evalUnder_append_of_andThen ?_⟩
  rw [first]
  exact Sighting.andThen_of_fault fails

/-- A round of a loop whose body ends, and the rounds after it. -/
theorem round {i : Fin 30000} (found : s.position? = some i) (nonzero : ¬ s.cell i = 0)
    (first : p.Ends trail body s host (.done s₁ host₁, trail₁))
    (second : p.Ends trail [.loop body] s₁ host₁ r) : p.Ends trail [.loop body] s host r := by
  obtain ⟨fuel, first⟩ := first
  obtain ⟨more, second⟩ := second
  refine ⟨fuel + more + 1, ?_⟩
  rw [evalUnder_loop_round found nonzero, evalUnder_of_le (Nat.le_add_right fuel more) first]
  exact evalUnder_of_le (Nat.le_add_left more fuel) second

/-- A loop ends with a fault in its body. -/
theorem round_of_fault {i : Fin 30000} (found : s.position? = some i) (nonzero : ¬ s.cell i = 0)
    (first : p.Ends trail body s host r) (fails : r.1.isFault = true) :
    p.Ends trail [.loop body] s host r := by
  obtain ⟨fuel, first⟩ := first
  refine ⟨fuel + 1, ?_⟩
  rw [evalUnder_loop_round found nonzero, first]
  exact Sighting.andThen_of_fault fails

end Ends

end Program

/-! ## Stores that are alike -/

/-- Stores that differ in the scratch register only, and if `exact` not even in that. -/
structure Store.Agrees (exact : Bool) (s t : Store) : Prop where
  tape : s.tape = t.tape
  pointer : s.pointer = t.pointer
  registry : s.registry = t.registry
  lastKey : s.lastKey = t.lastKey
  scratch : exact = true → s.scratch = t.scratch

/-- Ends that are alike: both without a fault or with the same one, and the host is left the
same. -/
inductive Outcome.Agrees {σ : Type} (exact : Bool) : Outcome σ → Outcome σ → Prop where
  | done {s t : Store} {host : σ} (same : s.Agrees exact t) :
    Agrees exact (.done s host) (.done t host)
  | fault {cause : Fault.Cause} {s t : Store} {host : σ} (same : s.Agrees exact t) :
    Agrees exact (.fault cause s host) (.fault cause t host)

/-- Outcomes that agree are both faults or neither. -/
theorem Outcome.Agrees.isFault {σ : Type} {exact : Bool} {o o' : Outcome σ}
    (same : o.Agrees exact o') : o'.isFault = o.isFault := by
  cases same <;> rfl

/-- Lists that are related element by element have related elements at each place, or none. -/
theorem getElem?_of_forall₂ {α : Type} {R : α → α → Prop} {xs ys : List α}
    (related : List.Forall₂ R xs ys) (i : Nat) :
    (xs[i]? = none ∧ ys[i]? = none) ∨ ∃ a b, xs[i]? = some a ∧ ys[i]? = some b ∧ R a b := by
  induction related generalizing i with
  | nil => exact .inl ⟨rfl, rfl⟩
  | cons first _ ih =>
    cases i with
    | zero => exact .inr ⟨_, _, rfl, rfl, first⟩
    | succ i => exact ih i

namespace Store

variable {exact : Bool} {s t : Store}

theorem Agrees.refl (exact : Bool) (s : Store) : s.Agrees exact s :=
  ⟨rfl, rfl, rfl, rfl, fun _ => rfl⟩

theorem Agrees.symm (same : s.Agrees exact t) : t.Agrees exact s :=
  ⟨same.tape.symm, same.pointer.symm, same.registry.symm, same.lastKey.symm,
    fun isExact => (same.scratch isExact).symm⟩

/-- Agreement of stores is transitive. -/
theorem Agrees.trans {u : Store} (first : s.Agrees exact t) (second : t.Agrees exact u) :
    s.Agrees exact u :=
  ⟨first.tape.trans second.tape, first.pointer.trans second.pointer,
    first.registry.trans second.registry, first.lastKey.trans second.lastKey,
    fun isExact => (first.scratch isExact).trans (second.scratch isExact)⟩

/-- Stores that agree in the scratch register as well are the same. -/
theorem Agrees.eq (same : s.Agrees true t) : s = t := by
  cases s
  cases t
  obtain ⟨rfl, rfl, rfl, rfl, scratch⟩ := same
  cases scratch rfl
  rfl

namespace Agrees

section Parts

variable (same : s.Agrees exact t)

include same

theorem position? : t.position? = s.position? := by
  simp only [Store.position?, same.pointer]

theorem outside : t.outside = s.outside := by
  simp only [Store.outside, same.pointer]

theorem cell (i : Fin 30000) : t.cell i = s.cell i := by
  simp only [Store.cell, same.tape]

/-- Stores that agree still do after a change of the same cell to the same value. -/
theorem setCell (i : Fin 30000) (value : Int32) :
    (s.setCell i value).Agrees exact (t.setCell i value) :=
  ⟨by simp only [Store.setCell, same.tape], same.pointer, same.registry, same.lastKey, same.scratch⟩

end Parts

variable {σ : Type}

/-- What is done at the current cell agrees if it agrees at every cell. -/
theorem atCell {use use' : Fin 30000 → Outcome σ} (same : s.Agrees exact t) (host : σ)
    (uses : ∀ i, (use i).Agrees exact (use' i)) :
    (s.atCell host use).Agrees exact (t.atCell host use') := by
  unfold Store.atCell
  rw [same.position?, same.outside]
  cases s.position? with
  | some i => exact uses i
  | none => exact .fault same

/-- Registering under the value of the same cell agrees, collisions included. -/
theorem bind (same : s.Agrees exact t) (host : σ) (id : Int) (i : Fin 30000) :
    (s.bind host id i).Agrees exact (t.bind host id i) := by
  unfold Store.bind
  rw [same.cell, ← same.registry]
  cases s.registry with
  | none => exact .fault same
  | some r =>
    dsimp only
    cases r.register (s.cell i) id with
    | ok r => exact .done ⟨same.tape, same.pointer, rfl, same.lastKey, same.scratch⟩
    | error collision => exact .fault same

/-- No node reads the scratch register. -/
theorem perform [Host σ] (same : s.Agrees exact t) (host : σ) (node : Node) :
    (s.perform host node).Agrees exact (t.perform host node) := by
  cases node with
  | move delta =>
    exact .done ⟨same.tape, by rw [same.pointer], same.registry, same.lastKey, same.scratch⟩
  | amend delta =>
    refine same.atCell host fun i => ?_
    rw [same.cell]
    have changed := same.setCell i (s.cell i + Int32.ofInt delta)
    exact .done ⟨changed.tape, changed.pointer, changed.registry, changed.lastKey, fun _ => rfl⟩
  | zero => exact same.atCell host fun i => .done (same.setCell i 0)
  | read =>
    unfold Store.perform
    rcases Host.read host with ⟨reason | value, left⟩
    · exact .fault same
    · exact same.atCell left fun i => .done (same.setCell i value)
  | write =>
    refine same.atCell host fun i => ?_
    rw [same.cell]
    rcases Host.write (s.cell i) host with ⟨reason | ⟨⟨⟩⟩, left⟩
    · exact .fault same
    · exact .done same
  | register id => exact same.atCell host fun i => same.bind host id i
  | sequence | loop | procedure | call => exact .done same

/-- Calls in stores that are alike find procedures of the same place, or fail for the same cause. -/
theorem callee {R : Procedure → Procedure → Prop} {procedures procedures' : List Procedure}
    (same : s.Agrees exact t) (related : List.Forall₂ R procedures procedures') (depth : Nat) :
    (∃ cause s' t', s.callee procedures depth = .error (cause, s') ∧
      t.callee procedures' depth = .error (cause, t') ∧ s'.Agrees exact t') ∨
    ∃ a b s' t', s.callee procedures depth = .ok (a, s') ∧
      t.callee procedures' depth = .ok (b, t') ∧ R a b ∧ s'.Agrees exact t' := by
  unfold Store.callee
  rw [same.position?, same.outside, ← same.registry]
  cases s.position? with
  | none => exact .inl ⟨_, _, _, rfl, rfl, same⟩
  | some i =>
    cases s.registry with
    | none => exact .inl ⟨_, _, _, rfl, rfl, same⟩
    | some r =>
      simp only [same.cell]
      have kept : Store.Agrees exact { s with registry := some r, lastKey := s.cell i }
          { t with registry := some r, lastKey := s.cell i } :=
        ⟨same.tape, same.pointer, rfl, rfl, same.scratch⟩
      cases r.table.find? (s.cell i) with
      | none => exact .inl ⟨_, _, _, rfl, rfl, kept⟩
      | some h =>
        simp only [Option.bind_some]
        rcases getElem?_of_forall₂ related h.id.toNat with ⟨none, none'⟩ | ⟨a, b, found, found', ab⟩
        · simp only [none, none']
          exact .inl ⟨_, _, _, rfl, rfl, kept⟩
        · simp only [found, found']
          by_cases shallow : depth < Fault.maxFrames
          · simp only [shallow, if_true]
            exact .inr ⟨a, b, _, _, rfl, rfl, ab, kept⟩
          · simp only [shallow, if_false]
            exact .inl ⟨_, _, _, rfl, rfl, kept⟩

end Agrees

end Store

/-! ## Imitation -/

/-- Nodes `b` of a program end alike wherever nodes `a` of another one end with fuel up to a
limit. -/
def Imitates (exact : Bool) (p q : Program) (limit : Nat) (a b : List Node) : Prop :=
  ∀ ⦃σ : Type⦄ [Host σ] ⦃fuel : Nat⦄ ⦃trail : List Handle⦄ ⦃s t : Store⦄ ⦃host : σ⦄
      ⦃r : Sighting σ⦄,
    fuel ≤ limit → s.Agrees exact t → p.evalUnder trail fuel a s host = some r →
      ∃ o, q.Ends trail b t host (o, r.2) ∧ r.1.Agrees exact o

namespace Imitates

variable {exact : Bool} {p q : Program} {limit : Nat} {a b a' b' : List Node}

theorem nil : Imitates exact p q limit [] [] := by
  intro σ _ fuel trail s t host r _ same h
  rw [Program.evalUnder] at h
  cases h
  exact ⟨.done t host, ⟨0, by rw [Program.evalUnder]⟩, .done same⟩

/-- Nodes side by side are imitated part by part. -/
theorem append (first : Imitates exact p q limit a b) (second : Imitates exact p q limit a' b') :
    Imitates exact p q limit (a ++ a') (b ++ b') := by
  intro σ _ fuel trail s t host r enough same h
  rcases Sighting.andThen_eq_some (Program.andThen_of_evalUnder_append h) with
    ⟨front, fails⟩ | ⟨s₁, host₁, trail₁, front, back⟩
  · obtain ⟨o, ends, alike⟩ := first enough same front
    exact ⟨o, ends.append_of_fault (alike.isFault.trans fails), alike⟩
  · obtain ⟨_, ends, alike⟩ := first enough same front
    cases alike with
    | done same₁ =>
      obtain ⟨o, ends', alike⟩ := second enough same₁ back
      exact ⟨o, ends.append ends', alike⟩

/-- A node that holds no others and calls none does the same everywhere. -/
theorem leaf {node : Node} (noSequence : ∀ body, node ≠ .sequence body)
    (noLoop : ∀ body, node ≠ .loop body) (noCall : node ≠ .call) :
    Imitates exact p q limit [node] [node] := by
  intro σ _ fuel trail s t host r _ same h
  rw [Program.evalUnder_single noSequence noLoop noCall] at h
  cases h
  exact ⟨_, ⟨0, Program.evalUnder_single noSequence noLoop noCall⟩, same.perform host node⟩

/-- A sequence is imitated by what imitates its body. -/
theorem sequence (inside : Imitates exact p q limit a b) :
    Imitates exact p q limit [.sequence a] [.sequence b] := by
  intro σ _ fuel trail s t host r enough same h
  rw [Program.evalUnder_sequence] at h
  obtain ⟨o, ⟨more, ends⟩, alike⟩ := inside enough same h
  exact ⟨o, ⟨more, Program.evalUnder_sequence.trans ends⟩, alike⟩

/-- A loop is imitated round by round. -/
theorem loop (inside : Imitates exact p q limit a b) :
    Imitates exact p q limit [.loop a] [.loop b] := by
  intro σ _ fuel trail s t host r enough same h
  induction fuel using Nat.strong_induction_on generalizing s t host with
  | _ fuel ih =>
    cases found : s.position? with
    | none =>
      rw [Program.evalUnder_loop_outside found] at h
      cases h
      refine ⟨_, ⟨0, Program.evalUnder_loop_outside (same.position?.trans found)⟩, ?_⟩
      rw [same.outside]
      exact .fault same
    | some i =>
      have found' := same.position?.trans found
      by_cases zero : s.cell i = 0
      · rw [Program.evalUnder_loop_zero found zero] at h
        obtain ⟨o, ⟨more, ends⟩, alike⟩ := nil enough same h
        have zero' : t.cell i = 0 := (same.cell i).trans zero
        exact ⟨o, ⟨more, (Program.evalUnder_loop_zero found' zero').trans ends⟩, alike⟩
      · have nonzero : ¬ t.cell i = 0 := by rwa [same.cell]
        cases fuel with
        | zero =>
          rw [Program.evalUnder_loop_none found zero] at h
          cases h
        | succ fuel =>
          have less : fuel ≤ limit := Nat.le_of_succ_le enough
          rw [Program.evalUnder_loop_round found zero] at h
          rcases Sighting.andThen_eq_some h with ⟨first, fails⟩ | ⟨s₁, host₁, trail₁, first, second⟩
          · obtain ⟨o, ends, alike⟩ := inside less same first
            exact ⟨o, ends.round_of_fault found' nonzero (alike.isFault.trans fails), alike⟩
          · obtain ⟨_, ends, alike⟩ := inside less same first
            cases alike with
            | done same₁ =>
              obtain ⟨o, ends', alike⟩ := ih fuel (Nat.lt_succ_self fuel) less same₁ second
              exact ⟨o, ends.round found' nonzero ends', alike⟩

/-- Calls are imitated if the bodies of procedures are imitated with less fuel. -/
theorem call
    (bodies : List.Forall₂
      (fun x y => x.id = y.id ∧ ∀ less < limit, Imitates exact p q less x.body y.body)
      p.procedures q.procedures) :
    Imitates exact p q limit [.call] [.call] := by
  intro σ _ fuel trail s t host r enough same h
  rcases same.callee bodies trail.length with
    ⟨cause, s', t', callee, callee', same'⟩ | ⟨x, y, s', t', callee, callee', ⟨number, body⟩, same'⟩
  · rw [Program.evalUnder_call_error callee] at h
    cases h
    exact ⟨_, ⟨0, Program.evalUnder_call_error callee'⟩, .fault same'⟩
  · cases fuel with
    | zero =>
      rw [Program.evalUnder_call_none callee] at h
      cases h
    | succ fuel =>
      rw [Program.evalUnder_call_ok callee] at h
      rcases Sighting.andThen_eq_some h with ⟨first, fails⟩ | ⟨s₁, host₁, trail₁, first, second⟩
      · obtain ⟨o, ⟨more, ends⟩, alike⟩ := body fuel enough le_rfl same' first
        refine ⟨o, ⟨more + 1, ?_⟩, alike⟩
        rw [Program.evalUnder_call_ok callee', ← number, ends]
        exact Sighting.andThen_of_fault (alike.isFault.trans fails)
      · obtain ⟨_, ⟨more, ends⟩, alike⟩ := body fuel enough le_rfl same' first
        rw [Program.evalUnder] at second
        cases second
        cases alike with
        | @done _ t₁ _ same₁ =>
          refine ⟨.done t₁ host₁, ⟨more + 1, ?_⟩, .done same₁⟩
          rw [Program.evalUnder_call_ok callee', ← number, ends]
          simp only [Sighting.andThen, Program.evalUnder]

/-- Nodes imitate themselves among procedures that are imitated. -/
theorem refl
    (bodies : List.Forall₂
      (fun x y => x.id = y.id ∧ ∀ less < limit, Imitates exact p q less x.body y.body)
      p.procedures q.procedures) (nodes : List Node) :
    Imitates exact p q limit nodes nodes := by
  match nodes with
  | [] => exact nil
  | .sequence body :: rest => exact append (refl bodies body).sequence (refl bodies rest)
  | .loop body :: rest => exact append (refl bodies body).loop (refl bodies rest)
  | .call :: rest => exact append (call bodies) (refl bodies rest)
  | .move _ :: rest | .amend _ :: rest | .read :: rest | .write :: rest | .zero :: rest
  | .procedure _ _ :: rest | .register _ :: rest =>
    exact append (leaf (by simp) (by simp) (by simp)) (refl bodies rest)

end Imitates

end TapeLang
