/-
# Programs without loops halt

A program without loops can run for long, since its procedures may call each other, and themselves,
any number of times. But calls are nested no deeper than the limit on active units allows, and a
call that goes deeper ends the run. So the fuel that evaluation takes is bounded by the number of
units that may still become active (`Program.isSome_evalAll`), whatever the host answers, and the
machine that follows the evaluation comes to an end: `Program.exists_done_of_loopFree`.
-/
import TapeLang.Proofs.Numbering
import TapeLang.Proofs.Simulation

namespace TapeLang

/-! ## Programs without loops -/

/-- Whether there is no loop among nodes, nor anywhere inside them. -/
def Node.isLoopFree : List Node → Bool
  | [] => true
  | .loop _ :: _ => false
  | .sequence body :: rest => isLoopFree body && isLoopFree rest
  | .procedure _ body :: rest => isLoopFree body && isLoopFree rest
  | _ :: rest => isLoopFree rest

theorem Node.not_isLoopFree_loop (body rest : List Node) :
    isLoopFree (.loop body :: rest) ≠ true := by
  simp [isLoopFree]

theorem Node.isLoopFree_tail {node : Node} {rest : List Node}
    (h : isLoopFree (node :: rest) = true) : isLoopFree rest = true := by
  cases node with
  | loop body => exact absurd h (not_isLoopFree_loop body rest)
  | sequence | procedure =>
    rw [isLoopFree, Bool.and_eq_true] at h
    exact h.2
  | _ => simpa [isLoopFree] using h

/-- A program without a loop in its main body and in the bodies of its procedures. -/
def Program.LoopFree (p : Program) : Prop :=
  ∀ body ∈ p.bodies, Node.isLoopFree body = true

/-- What is called is one of the procedures, and there is room for one more unit. -/
theorem Store.of_callee_eq_ok {s s' : Store} {procedures : List Procedure} {depth : Nat}
    {q : Procedure} (h : s.callee procedures depth = .ok (q, s')) :
    q ∈ procedures ∧ depth < Fault.maxFrames := by
  unfold callee at h
  split at h
  · cases h
  · cases h
  · next i r found registry =>
    dsimp only at h
    split at h
    · cases h
    · next q' there =>
      split at h
      · next room =>
        cases h
        obtain ⟨handle, -, known⟩ := Option.bind_eq_some_iff.1 there
        exact ⟨List.mem_of_getElem? known, room⟩
      · cases h

namespace Program

open Machine

variable {σ : Type} [Host σ] {p : Program}

omit [Host σ] in
/-- An evaluation that has an answer for the first of two parts, and for the second part after any
answer, has one for both. -/
theorem isSome_andThen {o : Option (Outcome σ)} {next : Store → σ → Option (Outcome σ)}
    (first : o.isSome = true) (second : ∀ s host, (next s host).isSome = true) :
    (Outcome.andThen o next).isSome = true := by
  rcases o with _ | ⟨s, host⟩ | ⟨cause, s, host⟩
  · cases first
  · exact second s host
  · rfl

/-- **Nodes without loops need no more fuel than there are units that may still become active.** -/
theorem isSome_evalAll (loopFree : p.LoopFree) {depth fuel : Nat}
    (enough : Fault.maxFrames ≤ depth + fuel) {nodes : List Node}
    (plain : Node.isLoopFree nodes = true) (s : Store) (host : σ) :
    (p.evalAll depth fuel nodes s host).isSome = true := by
  -- The induction is over the evaluation: a call goes one unit deeper and takes one piece of fuel.
  fun_induction p.evalAll depth fuel nodes s host with
  | case1 depth fuel s host => rfl
  | case2 depth fuel s host body rest ihBody ihRest =>
    rw [Node.isLoopFree, Bool.and_eq_true] at plain
    exact isSome_andThen (ihBody enough plain.1) fun s host => ihRest s host enough plain.2
  | case3 | case4 | case5 | case6 => exact absurd plain (Node.not_isLoopFree_loop _ _)
  | case7 depth fuel s host rest cause s' callee => rfl
  | case8 depth s host rest procedure s' callee =>
    have room := (Store.of_callee_eq_ok callee).2
    omega
  | case9 depth s host rest procedure s' callee fuel ihBody ihRest =>
    obtain ⟨known, -⟩ := Store.of_callee_eq_ok callee
    have body : Node.isLoopFree procedure.body = true :=
      loopFree _ (List.mem_cons_of_mem _ (List.mem_map_of_mem known))
    exact isSome_andThen (ihBody (by omega) body) fun s host =>
      ihRest s host enough (Node.isLoopFree_tail plain)
  | case10 depth fuel s host leaf rest noSequence noLoop noCall ih =>
    exact isSome_andThen rfl fun s host => ih s host enough (Node.isLoopFree_tail plain)

/-- A program without loops has a behaviour in front of every host. -/
theorem exists_eval_of_loopFree (loopFree : p.LoopFree) (host : σ) :
    ∃ b, p.eval Fault.maxFrames host = some b := by
  have main : Node.isLoopFree p.main = true := loopFree p.main List.mem_cons_self
  have answers := isSome_evalAll loopFree (Nat.le_add_left Fault.maxFrames 1) main p.start host
  obtain ⟨o, outcome⟩ := Option.isSome_iff_exists.1 answers
  exact ⟨o.behaviour.flush, by rw [eval, outcome, Option.map_some]⟩

/-- **Programs without loops always halt**: in front of every host, their runs come to a result or a
fault, however their procedures call each other. -/
theorem exists_done_of_loopFree {code : Bytecode} (compiled : p.compile = .ok code)
    (short : code.Short) (loopFree : p.LoopFree) (host : σ) :
    ∃ limit report m left, ({} : Machine).run code limit host = .done report m left := by
  obtain ⟨b, evaluated⟩ := exists_eval_of_loopFree loopFree host
  obtain ⟨limit, shows⟩ := run_shows_of_eval (emitted_of_compile compiled) short evaluated
  cases ended : ({} : Machine).run code limit host with
  | done report m left => exact ⟨limit, report, m, left, ended⟩
  | broken how left =>
    rw [ended] at shows
    exact shows.elim
  | unfinished =>
    rw [ended] at shows
    exact shows.elim

/-- A procedure that calls itself twice, as long as there is room for it. -/
theorem exists_done_of_recursion :
    let p : Program := {
      main := [.register 0, .sequence [.call, .write]]
      procedures := [⟨0, [.zero, .call, .call]⟩] }
    ∃ code : Bytecode, p.compile = .ok code ∧ code.Short ∧ p.LoopFree ∧
      ∃ limit report m left,
        ({} : Machine).run code limit Host.Silent.silent = .done report m left := by
  intro p
  have compiled : p.compile = .ok _ := rfl
  have loopFree : p.LoopFree := by
    simp [p, LoopFree, bodies, Node.isLoopFree]
  exact ⟨_, compiled, ⟨by decide, by decide⟩, loopFree,
    exists_done_of_loopFree compiled ⟨by decide, by decide⟩ loopFree _⟩

end Program

end TapeLang
