/-
# The numbers of procedures

Procedures are numbered by their opening brackets. So a program that was read from a source has as
many procedures as the source has opening brackets of this kind, each one under its number, with the
body that is read from the bytes between its brackets and with nothing but later procedures
registered in it; written out in the order of the source, the program registers them one after
another: `Program.reflects_of_parse`.

What such a program is like without its source is said by `Program.WellFormed`.
-/
import TapeLang.Proofs.Flatten
import TapeLang.Proofs.Pairing
import TapeLang.Proofs.Recall

namespace TapeLang

/-! ## Well-formed programs -/

namespace Node

/-- Whether nodes and those inside them are such as a source has: there are no nodes in a sequence
of their own and no procedures inside the tree, and no amount is zero. -/
def isWritten : List Node → Bool
  | [] => true
  | .sequence _ :: _ => false
  | .procedure _ _ :: _ => false
  | .move delta :: rest => delta != 0 && isWritten rest
  | .amend delta :: rest => delta != 0 && isWritten rest
  | .loop body :: rest => isWritten body && isWritten rest
  | _ :: rest => isWritten rest

/-- The number of calls in nodes. -/
def callCount : List Node → Nat
  | [] => 0
  | .call :: rest => callCount rest + 1
  | .sequence body :: rest => callCount body + callCount rest
  | .loop body :: rest => callCount body + callCount rest
  | .procedure _ body :: rest => callCount body + callCount rest
  | _ :: rest => callCount rest

/-- The numbers that nodes register, in the order of the source: what a procedure registers follows
its own number. Procedures inside procedures are followed down to a level. -/
def order (procedures : List Procedure) (level : Nat) (nodes : List Node) : Option (List Int) :=
  match nodes with
  | [] => some []
  | .sequence body :: rest => do
    let inner ← order procedures level body
    let after ← order procedures level rest
    return inner ++ after
  | .loop body :: rest => do
    let inner ← order procedures level body
    let after ← order procedures level rest
    return inner ++ after
  | .register id :: rest =>
    match level with
    | 0 => none
    | level + 1 => do
      let procedure ← if 0 ≤ id then procedures[id.toNat]? else none
      let inner ← order procedures level procedure.body
      let after ← order procedures (level + 1) rest
      return id :: (inner ++ after)
  | _ :: rest => order procedures level rest
termination_by (level, sizeOf nodes)

end Node

namespace Program

/-- The main body of a program and the bodies of its procedures. -/
def bodies (p : Program) : List (List Node) :=
  p.main :: p.procedures.map Procedure.body

/-- The numbers that a program registers, wherever it does so. -/
def registered (p : Program) : List Int :=
  p.bodies.flatMap Node.registered

/-- The number of calls of a program. -/
def callCount (p : Program) : Nat :=
  (p.bodies.map Node.callCount).sum

/-- The numbers that a program registers in the order of its source. No procedure stands inside more
procedures than there are. -/
def order (p : Program) : Option (List Int) :=
  Node.order p.procedures p.procedures.length p.main

/-- A program such as a source has. Its procedures are numbered as they stand in the source, from
zero on, and so each of them is registered once. -/
structure WellFormed (p : Program) : Prop where
  written : ∀ body ∈ p.bodies, Node.isWritten body = true
  numbered : ∀ (i : Nat) q, p.procedures[i]? = some q → q.id = i
  ordered : p.order = some ((List.range p.procedures.length).map Int.ofNat)
  calls : p.calls = p.callCount

end Program

/-! ## Counting in a source -/

namespace Located

/-- How often a kind stands in a source. -/
def count (kind : Token.Kind) (source : List Located) : Nat :=
  source.countP fun x => x.kind == kind

variable {kind : Token.Kind} {x : Located} {source : List Located}

@[simp] theorem count_append (kind : Token.Kind) (a b : List Located) :
    count kind (a ++ b) = count kind a + count kind b :=
  List.countP_append

theorem count_cons_of_eq (h : x.kind = kind) : count kind (x :: source) = count kind source + 1 :=
  List.countP_cons_of_pos (by simpa using h)

theorem count_cons_of_ne (h : x.kind ≠ kind) : count kind (x :: source) = count kind source :=
  List.countP_cons_of_neg (by simpa using h)

theorem count_eq_zero {stretch : List Located} (h : ∀ y ∈ stretch, y.kind ≠ kind) :
    count kind stretch = 0 :=
  List.countP_eq_zero.2 fun y hy => by simpa using h y hy

/-- The bytes of a run are of one kind. -/
theorem kind_of_mem_run {y : Located} (hy : y ∈ x :: Program.runOf x source) : y.kind = x.kind := by
  rcases List.mem_cons.1 hy with rfl | hy
  · rfl
  · exact congrArg Token.Kind.ofByte (Program.byte_of_mem_runOf hy)

/-- A run counts for no other kind than its own. -/
theorem count_run (h : x.kind ≠ kind) :
    count kind (x :: source) = count kind (Program.afterRun x source) := by
  have split : x :: source = (x :: Program.runOf x source) ++ Program.afterRun x source := by
    rw [List.cons_append, Program.runOf_append_afterRun]
  have none : count kind (x :: Program.runOf x source) = 0 :=
    count_eq_zero fun y hy => by rwa [kind_of_mem_run hy]
  rw [split, count_append, none, Nat.zero_add]

/-- A pair of brackets counts for its opening one and for what it holds. -/
theorem count_pair {k : Bracket} {z : Located} {body : List Located}
    (opens : x.kind = k.openingKind) (closes : z.kind = k.closingKind)
    (other : k.closingKind ≠ kind) :
    count kind (x :: (body ++ z :: source)) =
      (if k.openingKind = kind then 1 else 0) + (count kind body + count kind source) := by
  have last : z.kind ≠ kind := by rwa [closes]
  split
  · next same =>
    rw [count_cons_of_eq (opens.trans same), count_append, count_cons_of_ne last, Nat.add_comm 1]
  · next different =>
    have first : x.kind ≠ kind := by rwa [opens]
    rw [count_cons_of_ne first, count_append, count_cons_of_ne last, Nat.zero_add]

/-- A loop that holds one decrement counts for no other kinds than those of its operators. -/
theorem count_zero {y z : Located} (hx : x.kind = .loopOpen) (hy : y.kind = .decrement)
    (hz : z.kind = .loopClose) (noOpening : kind ≠ .loopOpen) (noDecrement : kind ≠ .decrement)
    (noClosing : kind ≠ .loopClose) :
    count kind (x :: y :: z :: source) = count kind source := by
  rw [count_cons_of_ne (by rw [hx]; exact noOpening.symm),
    count_cons_of_ne (by rw [hy]; exact noDecrement.symm),
    count_cons_of_ne (by rw [hz]; exact noClosing.symm)]

/-- The bytes of an operator are counted by its kind. -/
theorem count_eq {k : Token.Kind} (operator : k ≠ .comment) (source : List Located) :
    count k source = (source.map byte).count k.operator := by
  rw [List.count_eq_countP, List.countP_map]
  apply List.countP_congr
  intro x _
  simpa [kind] using Token.Kind.ofByte_eq_iff operator

end Located

/-! ## What single operators do -/

namespace Node

variable {count : Int} {kind : Token.Kind} {node : Node} {rest : List Node}

/-- The node of a run is one that a source has. -/
theorem isWritten_of_run (positive : 0 < count) (h : ofRun? count kind = some node) :
    isWritten (node :: rest) = isWritten rest := by
  have up : count != 0 := by simpa using positive.ne'
  have down : -count != 0 := by simpa using positive.ne'
  cases kind <;> cases h <;> simp only [isWritten, up, down, Bool.true_and]

/-- The node of a single operator is one that a source has. -/
theorem isWritten_of_operator (h : ofOperator? kind = some node) :
    isWritten (node :: rest) = isWritten rest := by
  cases kind <;> cases h <;> simp [isWritten]

/-- The node of a run is no call. -/
theorem callCount_of_run (h : ofRun? count kind = some node) :
    callCount (node :: rest) = callCount rest := by
  cases kind <;> cases h <;> simp [callCount]

/-- The node of a single operator is a call exactly if the operator is. -/
theorem callCount_of_operator (h : ofOperator? kind = some node) :
    callCount (node :: rest) = callCount rest + if kind = .call then 1 else 0 := by
  cases kind <;> cases h <;> simp [callCount]

/-- The node of a run registers nothing. -/
theorem order_of_run {procedures : List Procedure} {level : Nat}
    (h : ofRun? count kind = some node) :
    order procedures level (node :: rest) = order procedures level rest := by
  cases kind <;> cases h <;> simp [order]

/-- The node of a single operator registers nothing. -/
theorem order_of_operator {procedures : List Procedure} {level : Nat}
    (h : ofOperator? kind = some node) :
    order procedures level (node :: rest) = order procedures level rest := by
  cases kind <;> cases h <;> simp [order]

theorem ne_of_run (h : ofRun? count kind = some node) : kind ≠ .call ∧ kind ≠ .procOpen := by
  constructor
  all_goals
    rintro rfl
    cases h

theorem ne_of_operator (h : ofOperator? kind = some node) : kind ≠ .procOpen := by
  rintro rfl
  cases h

end Node

/-! ## What is read -/

open Located (count)

namespace Reads

variable {first : Nat} {source : List Located} {nodes : List Node} {bodies : List (List Node)}

/-- There is a procedure for each opening bracket. -/
theorem length_bodies (h : Reads first source nodes bodies) :
    bodies.length = count .procOpen source := by
  induction h with
  | nil => rfl
  | comment hx _ ih => rw [Located.count_cons_of_ne (by rw [hx]; decide), ih]
  | run hx _ ih => rw [Located.count_run (Node.ne_of_run hx).2, ih]
  | operator hx _ ih => rw [Located.count_cons_of_ne (Node.ne_of_operator hx), ih]
  | zero hx hy hz _ ih => rw [Located.count_zero hx hy hz (by decide) (by decide) (by decide), ih]
  | loop hx hz _ _ _ ihBody ih =>
    rw [Located.count_pair (k := .loop) hx hz (by decide), if_neg (by decide), List.length_append,
      ihBody, ih, Nat.zero_add]
  | procedure hx hz _ _ ihBody ih =>
    rw [Located.count_pair (k := .procedure) hx hz (by decide), if_pos (by decide),
      List.length_cons, List.length_append, ihBody, ih, Nat.add_comm]

/-- There is a call for each call operator. -/
theorem callCount_eq (h : Reads first source nodes bodies) :
    Node.callCount nodes + (bodies.map Node.callCount).sum = count .call source := by
  induction h with
  | nil => simp [Node.callCount, count]
  | comment hx _ ih => rw [Located.count_cons_of_ne (by rw [hx]; decide), ih]
  | run hx _ ih => rw [Located.count_run (Node.ne_of_run hx).1, Node.callCount_of_run hx, ih]
  | @operator _ x _ _ _ _ hx _ ih =>
    rw [Node.callCount_of_operator hx]
    by_cases call : x.kind = .call
    · rw [Located.count_cons_of_eq call, ← ih, if_pos call]
      omega
    · rw [Located.count_cons_of_ne call, ← ih, if_neg call, Nat.add_zero]
  | zero hx hy hz _ ih =>
    rw [Located.count_zero hx hy hz (by decide) (by decide) (by decide), Node.callCount, ih]
    all_goals simp
  | loop hx hz _ _ _ ihBody ih =>
    rw [Located.count_pair (k := .loop) hx hz (by decide), if_neg (by decide), Node.callCount, ← ih,
      ← ihBody, List.map_append, List.sum_append]
    omega
  | procedure hx hz _ _ ihBody ih =>
    rw [Located.count_pair (k := .procedure) hx hz (by decide), if_neg (by decide),
      Node.callCount, ← ih,
      ← ihBody, List.map_cons, List.sum_cons, List.map_append, List.sum_append]
    · omega
    all_goals simp

/-- What is read is such as a source has. -/
theorem isWritten (h : Reads first source nodes bodies) :
    ∀ body ∈ nodes :: bodies, Node.isWritten body = true := by
  simp only [List.forall_mem_cons]
  induction h with
  | nil => exact ⟨by simp [Node.isWritten], nofun⟩
  | comment _ _ ih => exact ih
  | @run _ x source _ _ _ hx _ ih =>
    rw [Node.isWritten_of_run (Program.runLength_pos x source) hx]
    exact ih
  | operator hx _ ih =>
    rw [Node.isWritten_of_operator hx]
    exact ih
  | zero _ _ _ _ ih =>
    rw [Node.isWritten]
    · exact ih
    all_goals simp
  | loop _ _ _ _ _ ihBody ih =>
    rw [Node.isWritten, ihBody.1, ih.1]
    exact ⟨rfl, List.forall_mem_append.2 ⟨ihBody.2, ih.2⟩⟩
  | procedure _ _ _ _ ihBody ih =>
    rw [Node.isWritten, List.forall_mem_cons]
    · exact ⟨ih.1, ihBody.1, List.forall_mem_append.2 ⟨ihBody.2, ih.2⟩⟩
    all_goals simp

end Reads

/-- So many numbers of procedures from one on. -/
def Procedure.numbers (first count : Nat) : List Int :=
  (List.range' first count).map Int.ofNat

namespace Procedure

variable {first m n : Nat} {id : Int}

theorem numbers_succ (first count : Nat) :
    numbers first (count + 1) = (first : Int) :: numbers (first + 1) count := by
  rw [numbers, List.range'_succ, List.map_cons]
  rfl

/-- So many numbers and so many more are the numbers one after the other. -/
theorem numbers_add (first m n : Nat) :
    numbers first (m + n) = numbers first m ++ numbers (first + m) n := by
  rw [numbers, ← List.range'_append_1, List.map_append]
  rfl

/-- The first of some numbers is the one they start from. -/
theorem numbers_eq_cons {ids : List Int} (h : numbers first n = id :: ids) :
    ∃ m, n = m + 1 ∧ id = first ∧ numbers (first + 1) m = ids := by
  cases n with
  | zero => cases h
  | succ m =>
    rw [numbers_succ] at h
    obtain ⟨rfl, rest⟩ := List.cons.inj h
    exact ⟨m, rfl, rfl, rest⟩

/-- Parts of some numbers are numbers themselves. -/
theorem numbers_eq_append {a b : List Int} (h : numbers first n = a ++ b) :
    ∃ m k, n = m + k ∧ a = numbers first m ∧ b = numbers (first + m) k := by
  have length : n = a.length + b.length := by
    rw [← List.length_append, ← h, numbers, List.length_map, List.length_range']
  rw [length, numbers_add] at h
  obtain ⟨front, back⟩ := List.append_inj h (by rw [numbers, List.length_map, List.length_range'])
  exact ⟨a.length, b.length, length, front.symm, back.symm⟩

/-- The numbers are those from the first one on, up to their count. -/
theorem mem_numbers : id ∈ numbers first n ↔ (first : Int) ≤ id ∧ id < (first + n : Nat) := by
  simp only [numbers, List.mem_map, List.mem_range'_1]
  constructor
  · rintro ⟨i, _, rfl⟩
    simp only [Int.ofNat_eq_natCast]
    omega
  · intro _
    exact ⟨id.toNat, by omega, by simp only [Int.ofNat_eq_natCast]; omega⟩

/-- No number comes twice. -/
theorem nodup_numbers (first n : Nat) : (numbers first n).Nodup :=
  (List.nodup_range' ..).map fun _ _ h => Int.ofNat.inj h

end Procedure

namespace Reads

variable {first : Nat} {source : List Located} {nodes : List Node} {bodies : List (List Node)}

/-- Every procedure is registered once. -/
theorem registered_perm (h : Reads first source nodes bodies) :
    ((nodes :: bodies).flatMap Node.registered).Perm (Procedure.numbers first bodies.length) := by
  simp only [List.flatMap_cons]
  induction h with
  | nil => simp [Node.registered, Procedure.numbers]
  | comment _ _ ih => exact ih
  | run hx _ ih =>
    rw [Node.registered_of_run hx]
    exact ih
  | operator hx _ ih =>
    rw [Node.registered_of_operator hx]
    exact ih
  | zero _ _ _ _ ih =>
    rw [Node.registered]
    · exact ih
    all_goals simp
  | @loop first _ _ _ _ inner nodes defined bodies _ _ _ _ _ ihBody ih =>
    rw [Node.registered, List.flatMap_append, List.length_append, Procedure.numbers_add]
    refine List.Perm.trans ?_ (ihBody.append ih)
    simp only [List.append_assoc]
    exact (List.perm_append_comm_assoc _ _ _).append_left _
  | @procedure first _ _ _ _ inner nodes defined bodies _ _ _ _ ihBody ih =>
    have count : (inner :: (defined ++ bodies)).length = defined.length + bodies.length + 1 := by
      simp
    rw [Node.registered, List.cons_append, count, Procedure.numbers_succ, Procedure.numbers_add,
      List.flatMap_cons, List.flatMap_append]
    refine List.Perm.cons _ (List.Perm.trans ?_ (ihBody.append ih))
    simp only [List.append_assoc]
    exact (List.perm_append_comm_assoc _ _ _).trans
      ((List.perm_append_comm_assoc _ _ _).append_left _)

/-- A body of an append is one of the first bodies or one of those behind them. -/
theorem getElem?_append_cases {i : Nat} {a b : List (List Node)} {body : List Node}
    (found : (a ++ b)[i]? = some body) :
    a[i]? = some body ∨ ∃ j, i = a.length + j ∧ b[j]? = some body := by
  by_cases inside : i < a.length
  · rw [List.getElem?_append_left inside] at found
    exact .inl found
  · obtain ⟨j, rfl⟩ := Nat.exists_eq_add_of_le (show a.length ≤ i by omega)
    rw [List.getElem?_append_right (by omega), Nat.add_sub_cancel_left] at found
    exact .inr ⟨j, rfl, found⟩

/-- Inside a procedure only later ones are registered. -/
theorem lt_of_registered (h : Reads first source nodes bodies) {i : Nat} {body : List Node}
    (found : bodies[i]? = some body) :
    ∀ id ∈ Node.registered body, ((first + i : Nat) : Int) < id := by
  induction h generalizing i with
  | nil => cases found
  | comment _ _ ih | run _ _ ih | operator _ _ ih | zero _ _ _ _ ih => exact ih found
  | loop _ _ _ _ _ ihBody ih =>
    rcases getElem?_append_cases found with inside | ⟨j, rfl, later⟩
    · exact ihBody inside
    · rw [← Nat.add_assoc]
      exact ih later
  | @procedure first _ _ _ _ _ _ defined _ _ _ within _ ihBody ih =>
    cases i with
    | zero =>
      cases found
      intro id hid
      have := List.forall_mem_cons.1 within.registerIn |>.1 id hid
      omega
    | succ i =>
      have place : first + (i + 1) = first + 1 + i := by omega
      rw [place]
      rcases getElem?_append_cases found with inside | ⟨j, rfl, later⟩
      · exact ihBody inside
      · rw [← Nat.add_assoc]
        exact ih later

/-- What is read registers its procedures in the order of their numbers. -/
theorem order_eq (h : Reads first source nodes bodies) {procedures : List Procedure}
    (held : Procedure.Hold procedures first bodies) {level : Nat} (enough : bodies.length ≤ level) :
    Node.order procedures level nodes = some (Procedure.numbers first bodies.length) := by
  induction h generalizing level with
  | nil => simp [Node.order, Procedure.numbers]
  | comment _ _ ih => exact ih held enough
  | run hx _ ih => rw [Node.order_of_run hx, ih held enough]
  | operator hx _ ih => rw [Node.order_of_operator hx, ih held enough]
  | zero _ _ _ _ ih =>
    rw [Node.order]
    · exact ih held enough
    all_goals simp
  | loop _ _ _ _ _ ihBody ih =>
    rw [List.length_append] at enough ⊢
    rw [Node.order, ihBody held.left (by omega), ih held.right (by omega), Procedure.numbers_add]
    rfl
  | @procedure _ _ _ _ _ inner _ defined bodies _ _ _ _ ihBody ih =>
    obtain ⟨q, found, rfl⟩ := held.head
    have others := Procedure.Hold.right (a := [_]) held
    have count : (q.body :: (defined ++ bodies)).length = defined.length + bodies.length + 1 := by
      simp
    rw [count] at enough ⊢
    obtain ⟨level, rfl⟩ : ∃ n, level = n + 1 := ⟨level - 1, by omega⟩
    rw [Node.order]
    simp only [Int.natCast_nonneg, if_true, Int.toNat_natCast, found, Option.bind_eq_bind,
      Option.bind_some]
    rw [ihBody others.left (by omega), ih others.right (by omega), Procedure.numbers_succ,
      Procedure.numbers_add]
    rfl

end Reads

/-! ## The procedure of a bracket -/

/-- Behind an opening bracket, in front of which there are `k` others, stands the source of the body
that has the place `k`, and the bodies of the procedures in it come next. -/
def Reads.At (first k : Nat) (behind : List Located) (bodies : List (List Node)) : Prop :=
  ∃ inside z after inner defined others, behind = inside ++ z :: after ∧ z.kind = .procClose ∧
    Reads (first + k + 1) inside inner defined ∧ bodies.drop k = inner :: (defined ++ others)

namespace Reads

variable {first k m : Nat} {x z : Located} {front behind source : List Located} {nodes : List Node}
  {bodies : List (List Node)}

/-- More of the source and more bodies behind do no harm. -/
theorem At.append (h : At first k behind bodies) (later : List Located) (more : List (List Node)) :
    At first k (behind ++ later) (bodies ++ more) := by
  obtain ⟨inside, z, after, inner, defined, others, rfl, closes, reads, found⟩ := h
  refine ⟨inside, z, after ++ later, inner, defined, others ++ more, by simp, closes, reads, ?_⟩
  have enough : k ≤ bodies.length := by
    by_contra beyond
    rw [List.drop_eq_nil_of_le (by omega)] at found
    cases found
  rw [List.drop_append_of_le_length enough, found]
  simp

/-- Bodies in front are counted. -/
theorem At.skip (defined : List (List Node)) (h : At (first + defined.length) k behind bodies) :
    At first (defined.length + k) behind (defined ++ bodies) := by
  obtain ⟨inside, z, after, inner, own, others, split, closes, reads, found⟩ := h
  refine ⟨inside, z, after, inner, own, others, split, closes, ?_, ?_⟩
  · rwa [← Nat.add_assoc]
  · rw [List.drop_length_add_append, found]

/-- A byte behind a stretch without its kind. -/
theorem split_behind (stretch : List Located) {rest : List Located}
    (apart : ∀ y ∈ stretch, y.kind ≠ x.kind) (same : stretch ++ rest = front ++ x :: behind) :
    ∃ front', front = stretch ++ front' ∧ rest = front' ++ x :: behind := by
  rcases List.append_eq_append_iff.1 same with ⟨front', rfl, later⟩ | ⟨more, rfl, later⟩
  · exact ⟨front', rfl, later⟩
  · cases more with
    | nil => exact ⟨[], by simp, later.symm⟩
    | cons y more =>
      obtain ⟨rfl, -⟩ := List.cons.inj later
      exact absurd rfl (apart x (by simp))

/-- A byte stands inside a pair of brackets or behind it. -/
theorem split_pair {body : List Located} (apart : z.kind ≠ x.kind)
    (same : body ++ z :: source = front ++ x :: behind) :
    (∃ inside, body = front ++ x :: inside ∧ behind = inside ++ z :: source) ∨
      ∃ between, front = body ++ z :: between ∧ source = between ++ x :: behind := by
  rcases List.append_eq_append_iff.1 same with ⟨more, rfl, later⟩ | ⟨more, rfl, later⟩
  · obtain ⟨between, rfl, later⟩ := split_behind [z] (by simpa using apart) later
    exact .inr ⟨between, rfl, (List.cons.inj later).2⟩
  · cases more with
    | nil =>
      obtain ⟨rfl, -⟩ := List.cons.inj later
      exact absurd rfl apart
    | cons y more =>
      obtain ⟨rfl, rest⟩ := List.cons.inj later
      exact .inl ⟨more, rfl, rest⟩

/-- A stretch without opening brackets makes no difference. -/
theorem At.after {stretch rest : List Located} (opens : x.kind = .procOpen)
    (none : ∀ y ∈ stretch, y.kind ≠ .procOpen) (split : stretch ++ rest = front ++ x :: behind)
    (later : ∀ {front behind}, rest = front ++ x :: behind →
      At first (count .procOpen front) behind bodies) :
    At first (count .procOpen front) behind bodies := by
  obtain ⟨front, rfl, rest⟩ := split_behind stretch (by rwa [opens]) split
  rw [Located.count_append, Located.count_eq_zero none, Nat.zero_add]
  exact later rest

/-- The bracket stands in what is read first, or behind it. -/
theorem At.of_pair {body : List Located} {inner : List Node} {defined : List (List Node)}
    (opens : x.kind = .procOpen) (closes : z.kind ≠ .procOpen)
    (split : body ++ z :: source = front ++ x :: behind) (reads : Reads first body inner defined)
    (inside : ∀ {front behind}, body = front ++ x :: behind →
      At first (count .procOpen front) behind defined)
    (later : ∀ {front behind}, source = front ++ x :: behind →
      At (first + defined.length) (count .procOpen front) behind bodies) :
    At first (count .procOpen front) behind (defined ++ bodies) := by
  rcases split_pair (by rwa [opens]) split with ⟨within, rfl, rfl⟩ | ⟨between, rfl, rfl⟩
  · exact (inside rfl).append _ _
  · rw [Located.count_append, Located.count_cons_of_ne closes, ← reads.length_bodies]
    exact (later rfl).skip _

/-- **The body of a procedure is read from between its brackets**, and has the number of its opening
bracket. -/
theorem at_opening (h : Reads first source nodes bodies) (opens : x.kind = .procOpen)
    (split : source = front ++ x :: behind) : At first (count .procOpen front) behind bodies := by
  induction h generalizing front behind with
  | nil => simp at split
  | @comment _ y _ _ _ hy _ ih =>
    have none : ∀ b ∈ [y], b.kind ≠ .procOpen := by simp [hy]
    exact .after opens none split ih
  | @run _ y source _ _ _ hy _ ih =>
    have none : ∀ b ∈ y :: Program.runOf y source, b.kind ≠ .procOpen := fun b hb => by
      rw [Located.kind_of_mem_run hb]
      exact (Node.ne_of_run hy).2
    rw [← Program.runOf_append_afterRun y source, ← List.cons_append] at split
    exact .after opens none split ih
  | @operator _ y _ _ _ _ hy _ ih =>
    have none : ∀ b ∈ [y], b.kind ≠ .procOpen := by simpa using Node.ne_of_operator hy
    exact .after opens none split ih
  | @zero _ y y' y'' _ _ _ hy hy' hy'' _ ih =>
    have none : ∀ b ∈ [y, y', y''], b.kind ≠ .procOpen := by simp [hy, hy', hy'']
    exact .after opens none split ih
  | @loop _ y z _ _ _ _ _ _ hy hz _ reads _ ihBody ih =>
    have none : ∀ b ∈ [y], b.kind ≠ .procOpen := by simp [hy]
    have closes : z.kind ≠ .procOpen := by rw [hz]; decide
    exact .after opens none split fun split => .of_pair opens closes split reads ihBody ih
  | @procedure _ y z body source inner _ defined bodies hy hz reads _ ihBody ih =>
    have closes : z.kind ≠ .procOpen := by rw [hz]; decide
    cases front with
    | nil =>
      obtain ⟨rfl, rfl⟩ := List.cons.inj split
      exact ⟨body, z, source, inner, defined, bodies, rfl, hz, reads, rfl⟩
    | cons y' front =>
      obtain ⟨rfl, rest⟩ := List.cons.inj split
      rw [Located.count_cons_of_eq hy, Nat.add_comm]
      -- The body of the procedure comes before those inside it and those behind it.
      exact .skip [inner] (.of_pair opens closes rest reads ihBody ih)

end Reads

/-! ## Programs and their sources -/

namespace Program

/-- The procedure that opens at a place of a source has the number of opening brackets before it.
Its body is what is read from the bytes up to its closing bracket, and the bodies of the procedures
inside come next. -/
def Defines (p : Program) (source : List UInt8) (i : Nat) : Prop :=
  let k := (source.take i).count '('.toUInt8
  ∃ j body defined, Bracket.procedure.Pair source i j ∧
    parseBody (k + 1) [] #[] (((Located.ofBytes source).take j).drop (i + 1)) =
      .ok (body, defined) ∧
    p.procedures[k]? = some ⟨k, body⟩ ∧ Procedure.Hold p.procedures (k + 1) defined.toList

/-- A program is numbered as a source says: it has the procedures of the source under the numbers of
their opening brackets, and registers each of them at one place. -/
structure Reflects (p : Program) (source : List UInt8) : Prop where
  wellFormed : p.WellFormed
  length : p.procedures.length = source.count '('.toUInt8
  defines : ∀ i, source[i]? = some '('.toUInt8 → p.Defines source i
  once : ∀ i < p.procedures.length, p.registered.count (i : Int) = 1
  known : ∀ id ∈ p.registered, ∃ i < p.procedures.length, id = (i : Int)
  later : ∀ (i : Nat) q, p.procedures[i]? = some q → ∀ id ∈ Node.registered q.body, (i : Int) < id
  calls : p.calls = (source.count ':'.toUInt8 : Nat)

variable {source : List UInt8} {bodies : List (List Node)} {main : List Node} {calls : Nat}

/-- The procedure at a place has its place as its number. -/
theorem getElem?_numbered (i : Nat) :
    (numbered bodies.toArray)[i]? = bodies[i]?.map (Procedure.mk i) := by
  simp [numbered, Function.comp_def]

/-- Calls are counted in the bytes of a source as in its located operators. -/
theorem callCount_ofBytes (source : List UInt8) :
    count .call (Located.ofBytes source) = Source.callCount source := by
  rw [Located.count_eq (by decide), Located.map_byte_ofBytes, Source.callCount,
    List.count_eq_countP]
  apply List.countP_congr
  intro b _
  simpa using (Token.Kind.ofByte_eq_iff (by decide)).symm

/-- A program that is read is well formed. -/
theorem wellFormed_of_reads (h : Reads 0 (Located.ofBytes source) main bodies) :
    WellFormed ⟨main, numbered bodies.toArray, Source.callCount source⟩ := by
  have length : (numbered bodies.toArray).length = bodies.length := by simp [numbered]
  constructor
  · rw [Program.bodies, map_body_numbered]
    exact h.isWritten
  · intro i q found
    rw [getElem?_numbered] at found
    obtain ⟨body, -, rfl⟩ := Option.map_eq_some_iff.1 found
    rfl
  · rw [Program.order, length, List.range_eq_range']
    exact h.order_eq ⟨[], by simp [map_body_numbered]⟩ (Nat.le_refl _)
  · rw [Program.callCount, Program.bodies, map_body_numbered, List.map_cons, List.sum_cons,
      h.callCount_eq, callCount_ofBytes]

/-- A program that is read defines a procedure at each opening bracket of one. -/
theorem defines_of_reads (h : Reads 0 (Located.ofBytes source) main bodies) {i : Nat}
    (opens : source[i]? = some '('.toUInt8) :
    Defines ⟨main, numbered bodies.toArray, calls⟩ source i := by
  set located := Located.ofBytes source with place
  have bytes : located.map Located.byte = source := Located.map_byte_ofBytes source
  have inside : i < located.length := by
    rw [← List.length_map Located.byte, bytes]
    exact (List.getElem?_eq_some_iff.1 opens).1
  have kind : located[i].kind = .procOpen := by
    have byte := (Located.getElem?_ofBytes (List.getElem?_eq_getElem inside)).2
    exact (Bracket.ofByte_eq_openingKind .procedure).2 (Option.some.inj (byte.symm.trans opens))
  have split : located = located.take i ++ located[i] :: located.drop (i + 1) := by
    rw [List.getElem_cons_drop, List.take_append_drop]
  obtain ⟨within, z, after, inner, defined, others, behind, closes, reads, found⟩ :=
    h.at_opening kind split
  have earlier : count .procOpen (located.take i) = (source.take i).count '('.toUInt8 := by
    rw [Located.count_eq (by decide), List.map_take, bytes]
    rfl
  rw [earlier, Nat.zero_add] at reads
  rw [earlier] at found
  refine ⟨i + 1 + within.length, inner, defined.toArray, ?_, ?_, ?_, others, ?_⟩
  · have closing : z.byte = Bracket.procedure.closing :=
      (Bracket.ofByte_eq_closingKind .procedure).1 closes
    have opening : located[i].byte = Bracket.procedure.opening :=
      (Bracket.ofByte_eq_openingKind .procedure).1 kind
    refine Bracket.pair_iff_append.2 ⟨(located.take i).map Located.byte, within.map Located.byte,
      after.map Located.byte, ?_, ?_, by rw [List.length_map], reads.balanced .procedure⟩
    · rw [behind] at split
      have whole := congrArg (List.map Located.byte) split
      rw [bytes, List.map_append, List.map_cons, List.map_append, List.map_cons,
        opening, closing] at whole
      exact whole
    · rw [List.length_map, List.length_take, Nat.min_eq_left inside.le]
  · have between : (located.take (i + 1 + within.length)).drop (i + 1) = within := by
      rw [List.drop_take, behind, Nat.add_sub_cancel_left, List.take_left]
    rw [between, parseBody_of_reads reads rfl]
    simp
  · rw [getElem?_numbered, ← List.head?_drop, found]
    rfl
  · rw [map_body_numbered, ← List.drop_drop, found]
    rfl

/-- **Procedures have the numbers of their brackets.** A program that was read is well-formed, has
the procedures of its source, each with the body that stands between its brackets, and registers
each of them once. -/
theorem reflects_of_parse {p : Program} (h : parse source = .ok p) : p.Reflects source := by
  obtain ⟨main, bodies, reads, rfl⟩ := parse_eq_ok_iff.1 h
  have length : (numbered bodies.toArray).length = bodies.length := by simp [numbered]
  have perm := reads.registered_perm
  have registered : registered ⟨main, numbered bodies.toArray, Source.callCount source⟩ =
      (main :: bodies).flatMap Node.registered := by
    rw [Program.registered, Program.bodies, map_body_numbered]
  constructor
  · exact wellFormed_of_reads reads
  · rw [length, reads.length_bodies, Located.count_eq (by decide), Located.map_byte_ofBytes]
    rfl
  · exact fun i opens => defines_of_reads reads opens
  · intro i inside
    rw [length] at inside
    rw [registered, perm.count_eq]
    have member : (i : Int) ∈ Procedure.numbers 0 bodies.length := by
      rw [Procedure.mem_numbers]
      omega
    exact List.count_eq_one_of_mem (Procedure.nodup_numbers 0 _) member
  · intro id hid
    rw [registered, perm.mem_iff, Procedure.mem_numbers] at hid
    refine ⟨id.toNat, ?_, by omega⟩
    rw [length]
    omega
  · intro i q found
    rw [getElem?_numbered] at found
    obtain ⟨body, here, rfl⟩ := Option.map_eq_some_iff.1 found
    simpa using reads.lt_of_registered here
  · rw [← callCount_ofBytes, Located.count_eq (by decide), Located.map_byte_ofBytes]
    rfl

/-- Of two brackets inside a loop, the outer one has the lower number. -/
theorem reflects_of_parse_nested :
    ∃ p, parse "[(:[-](>))](<)".toUTF8.toList = .ok p ∧
      p.Reflects "[(:[-](>))](<)".toUTF8.toList := by
  have read : parse "[(:[-](>))](<)".toUTF8.toList =
      .ok { main := [.loop [.register 0], .register 2]
            procedures := [⟨0, [.call, .zero, .register 1]⟩, ⟨1, [.move 1]⟩, ⟨2, [.move (-1)]⟩]
            calls := 1 } := by
    cbv
  exact ⟨_, read, reflects_of_parse read⟩

end Program

end TapeLang
