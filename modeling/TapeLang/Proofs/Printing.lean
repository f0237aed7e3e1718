/-
# Printing programs

A program is printed as a source, with a space before each node. The spaces keep runs of one
operator apart, and a loop around a single decrement from a zero. So every well-formed program is
read back from what is printed, `Program.parse_print`: in particular, every such program has a
source.

Printing goes into a procedure where it is registered, as `Node.order` does. So along one induction
the numbers that come in order are those which reading gives.
-/
import TapeLang.Proofs.Numbering

namespace TapeLang

/-! ## Printing -/

namespace Node

/-- Nodes as a source, with a space before each of them, and each procedure where it is registered.
Procedures inside procedures are printed down to a level; nodes that a source cannot give are not
printed. -/
def printAll (procedures : List Procedure) (level : Nat) (nodes : List Node) :
    Option (List UInt8) :=
  match nodes with
  | [] => some []
  | .zero :: rest => do
    let after ← printAll procedures level rest
    return ' '.toUInt8 :: '['.toUInt8 :: '-'.toUInt8 :: ']'.toUInt8 :: after
  | .loop body :: rest => do
    let inner ← printAll procedures level body
    let after ← printAll procedures level rest
    return ' '.toUInt8 :: '['.toUInt8 :: (inner ++ ']'.toUInt8 :: after)
  | .register id :: rest =>
    match level with
    | 0 => none
    | level + 1 => do
      let procedure ← if 0 ≤ id then procedures[id.toNat]? else none
      let inner ← printAll procedures level procedure.body
      let after ← printAll procedures (level + 1) rest
      return ' '.toUInt8 :: '('.toUInt8 :: (inner ++ ')'.toUInt8 :: after)
  | leaf :: rest => do
    let item ← leaf.item?
    let after ← printAll procedures level rest
    return ' '.toUInt8 :: (List.replicate item.2 item.1.operator ++ after)
termination_by (level, sizeOf nodes)

end Node

/-- A program printed as a source. No procedure stands inside more procedures than there are. -/
def Program.print (p : Program) : Option (List UInt8) :=
  Node.printAll p.procedures p.procedures.length p.main

/-! ## Reading texts -/

/-- A text begins with a space, if it begins. -/
def Spaced (text : List UInt8) : Prop :=
  ∀ b ∈ text.head?, b = ' '.toUInt8

theorem Spaced.nil : Spaced [] := nofun

theorem Spaced.space (text : List UInt8) : Spaced (' '.toUInt8 :: text) := by
  simp [Spaced]

/-- The bytes that carry on a run end where another byte stands. -/
theorem Program.run_append {x : Located} {again after : List Located}
    (repeated : ∀ y ∈ again, y.byte = x.byte) (ends : ∀ y ∈ after.head?, y.byte ≠ x.byte) :
    runOf x (again ++ after) = again ∧ afterRun x (again ++ after) = after := by
  have same : ∀ y ∈ again, (y.byte == x.byte) = true := fun y hy => by simpa using repeated y hy
  rw [runOf, afterRun, List.takeWhile_append_of_pos same, List.dropWhile_append_of_pos same]
  cases after with
  | nil => simp
  | cons y after =>
    have other : y.byte ≠ x.byte := by simpa using ends
    simp [other]

/-- A text reads as nodes, wherever its bytes stand. -/
def ReadsText (first : Nat) (text : List UInt8) (nodes : List Node) (bodies : List (List Node)) :
    Prop :=
  ∀ source : List Located, source.map Located.byte = text → Reads first source nodes bodies

namespace ReadsText

variable {first count : Nat} {text inside : List UInt8} {kind : Token.Kind} {node : Node}
  {nodes inner : List Node} {bodies defined : List (List Node)}

theorem nil : ReadsText first [] [] [] := by
  intro source bytes
  rw [List.map_eq_nil_iff.1 bytes]
  exact .nil

/-- A space in front of a text changes nothing about how it reads. -/
theorem space (h : ReadsText first text nodes bodies) :
    ReadsText first (' '.toUInt8 :: text) nodes bodies := by
  intro source bytes
  obtain ⟨x, rest, rfl, here, later⟩ := List.map_eq_cons_iff.1 bytes
  refine .comment ?_ (h rest later)
  rw [Located.kind, here]
  rfl

/-- A single operator in front of a text reads as its node. -/
theorem operator (hk : Node.ofOperator? kind = some node) (h : ReadsText first text nodes bodies) :
    ReadsText first (kind.operator :: text) (node :: nodes) bodies := by
  intro source bytes
  obtain ⟨x, rest, rfl, here, later⟩ := List.map_eq_cons_iff.1 bytes
  refine .operator ?_ (h rest later)
  rwa [Located.kind, here, Token.Kind.ofByte_operator]

/-- A run ends at the space behind it. -/
theorem run (hk : Node.ofRun? count kind = some node) (positive : 0 < count) (spaced : Spaced text)
    (h : ReadsText first text nodes bodies) :
    ReadsText first (List.replicate count kind.operator ++ text) (node :: nodes) bodies := by
  intro source bytes
  obtain ⟨n, rfl⟩ := Nat.exists_eq_add_of_le' positive
  rw [List.replicate_succ, List.cons_append] at bytes
  obtain ⟨x, rest, rfl, here, later⟩ := List.map_eq_cons_iff.1 bytes
  obtain ⟨again, after, rfl, same, behind⟩ := List.map_eq_append_iff.1 later
  have repeated : ∀ y ∈ again, y.byte = x.byte := by
    intro y hy
    rw [here]
    exact List.eq_of_mem_replicate (same ▸ List.mem_map_of_mem hy)
  have ends : ∀ y ∈ after.head?, y.byte ≠ x.byte := by
    intro y hy
    have blank : y.byte = ' '.toUInt8 := by
      refine spaced y.byte ?_
      rw [← behind, List.head?_map]
      exact Option.mem_map_of_mem _ hy
    rw [blank, here]
    cases kind <;> first | decide | cases hk
  obtain ⟨taken, left⟩ := Program.run_append repeated ends
  have length : again.length = n := by
    rw [← List.length_map Located.byte, same, List.length_replicate]
  have reads : Reads first (Program.afterRun x (again ++ after)) nodes bodies := by
    rw [left]
    exact h after behind
  refine .run ?_ reads
  rw [Program.runLength, taken, length, Located.kind, here, Token.Kind.ofByte_operator]
  exact hk

/-- A loop that holds one decrement, in front of a text, reads as a zero. -/
theorem zero (h : ReadsText first text nodes bodies) :
    ReadsText first ('['.toUInt8 :: '-'.toUInt8 :: ']'.toUInt8 :: text)
      (.zero :: nodes) bodies := by
  intro source bytes
  obtain ⟨x, rest, rfl, opens, later⟩ := List.map_eq_cons_iff.1 bytes
  obtain ⟨y, rest, rfl, less, later⟩ := List.map_eq_cons_iff.1 later
  obtain ⟨z, rest, rfl, closes, later⟩ := List.map_eq_cons_iff.1 later
  refine .zero ?_ ?_ ?_ (h rest later)
  · rw [Located.kind, opens]
    rfl
  · rw [Located.kind, less]
    rfl
  · rw [Located.kind, closes]
    rfl

/-- What is printed of a body is no single decrement, since it begins with a space. -/
theorem loop (spaced : Spaced inside) (within : ReadsText first inside inner defined)
    (h : ReadsText (first + defined.length) text nodes bodies) :
    ReadsText first ('['.toUInt8 :: (inside ++ ']'.toUInt8 :: text)) (.loop inner :: nodes)
      (defined ++ bodies) := by
  intro source bytes
  obtain ⟨x, rest, rfl, opens, later⟩ := List.map_eq_cons_iff.1 bytes
  obtain ⟨body, rest, rfl, held, later⟩ := List.map_eq_append_iff.1 later
  obtain ⟨z, rest, rfl, closes, later⟩ := List.map_eq_cons_iff.1 later
  refine .loop ((Bracket.ofByte_eq_openingKind .loop).2 opens)
    ((Bracket.ofByte_eq_closingKind .loop).2 closes)
    ?_ (within body held) (h rest later)
  rintro y rfl less
  have blank : y.byte = ' '.toUInt8 := spaced y.byte (by simp [← held])
  rw [Located.kind, blank] at less
  cases less

/-- A procedure in front of a text reads as its registration, and its body comes before those behind
it. -/
theorem procedure (within : ReadsText (first + 1) inside inner defined)
    (h : ReadsText (first + 1 + defined.length) text nodes bodies) :
    ReadsText first ('('.toUInt8 :: (inside ++ ')'.toUInt8 :: text)) (.register first :: nodes)
      (inner :: (defined ++ bodies)) := by
  intro source bytes
  obtain ⟨x, rest, rfl, opens, later⟩ := List.map_eq_cons_iff.1 bytes
  obtain ⟨body, rest, rfl, held, later⟩ := List.map_eq_append_iff.1 later
  obtain ⟨z, rest, rfl, closes, later⟩ := List.map_eq_cons_iff.1 later
  exact .procedure ((Bracket.ofByte_eq_openingKind .procedure).2 opens)
    ((Bracket.ofByte_eq_closingKind .procedure).2 closes) (within body held) (h rest later)

end ReadsText

/-! ## What is printed is read back -/

namespace Procedure.Hold

variable {procedures : List Procedure} {first : Nat} {a b : List (List Node)}

/-- Bodies that are held one after another are held together. -/
theorem append (h : Hold procedures first a) (h' : Hold procedures (first + a.length) b) :
    Hold procedures first (a ++ b) := by
  obtain ⟨others, held⟩ := h
  obtain ⟨others', held'⟩ := h'
  refine ⟨others', ?_⟩
  rw [← List.drop_drop, held, List.drop_left] at held'
  rw [held, held', List.append_assoc]

/-- A procedure and the bodies behind it are held together. -/
theorem cons {q : Procedure} (found : procedures[first]? = some q)
    (h : Hold procedures (first + 1) a) : Hold procedures first (q.body :: a) := by
  refine append (a := [q.body]) ?_ h
  obtain ⟨inside, here⟩ := List.getElem?_eq_some_iff.1 found
  refine ⟨(procedures.map Procedure.body).drop (first + 1), ?_⟩
  rw [List.drop_eq_getElem_cons (by simpa using inside), List.getElem_map, here]
  rfl

end Procedure.Hold

namespace Item

/-- Every amount but zero has an operator and a count. -/
theorem exists_signed (up down : Token.Kind) {amount : Int} (h : amount ≠ 0) :
    ∃ kind count, signed up down amount = some (kind, count) := by
  rcases Int.lt_or_gt_of_ne h with negative | positive
  · exact ⟨down, _, by rw [signed, if_neg (by omega), if_pos negative]⟩
  · exact ⟨up, _, signed_of_pos positive⟩

/-- An amount and its operator, which tells the sign. -/
theorem of_signed {up down kind : Token.Kind} {amount : Int} {count : Nat}
    (h : signed up down amount = some (kind, count)) :
    0 < count ∧ (kind = up ∧ amount = count ∨ kind = down ∧ amount = -count) := by
  rw [signed] at h
  split at h
  · cases h
    exact ⟨by omega, .inl ⟨rfl, by omega⟩⟩
  · split at h
    · cases h
      exact ⟨by omega, .inr ⟨rfl, by omega⟩⟩
    · cases h

end Item

namespace Node

variable {procedures : List Procedure} {level first count m n : Nat} {kind : Token.Kind}
  {node : Node} {nodes body rest : List Node}

/-- The operator of a node reads as the node. -/
theorem of_item? (h : node.item? = some (kind, count)) :
    (0 < count ∧ ofRun? count kind = some node) ∨ (count = 1 ∧ ofOperator? kind = some node) := by
  cases node with
  | sequence | zero | loop | procedure | register => cases h
  | move delta =>
    obtain ⟨positive, ⟨rfl, rfl⟩ | ⟨rfl, rfl⟩⟩ := Item.of_signed h
    · exact .inl ⟨positive, rfl⟩
    · exact .inl ⟨positive, rfl⟩
  | amend delta =>
    obtain ⟨positive, ⟨rfl, rfl⟩ | ⟨rfl, rfl⟩⟩ := Item.of_signed h
    · exact .inl ⟨positive, rfl⟩
    · exact .inl ⟨positive, rfl⟩
  | read | write | call =>
    cases h
    exact .inr ⟨rfl, rfl⟩

/-- Nodes are printed, and what is printed is read as them, with `n` procedures that are held from
`first` on. -/
def Printed (procedures : List Procedure) (level first n : Nat) (nodes : List Node) : Prop :=
  ∃ text bodies, printAll procedures level nodes = some text ∧ Spaced text ∧
    bodies.length = n ∧ Procedure.Hold procedures first bodies ∧ ReadsText first text nodes bodies

theorem Printed.nil : Printed procedures level first 0 [] :=
  ⟨[], [], by simp [printAll], .nil, rfl, ⟨_, rfl⟩, .nil⟩

/-- A node with an item is printed in front of others. -/
theorem Printed.leaf (h : Printed procedures level first n rest)
    (leaf : node.item? = some (kind, count)) : Printed procedures level first n (node :: rest) := by
  obtain ⟨text, bodies, printed, spaced, length, held, reads⟩ := h
  refine ⟨' '.toUInt8 :: (List.replicate count kind.operator ++ text), bodies, ?_, .space _, length,
    held, ?_⟩
  · cases node with
    | sequence | zero | loop | procedure | register => cases leaf
    | move | amend | read | write | call => simp [printAll, leaf, printed]
  · rcases of_item? leaf with ⟨positive, run⟩ | ⟨rfl, operator⟩
    · exact .space (.run run positive spaced reads)
    · exact .space (.operator operator reads)

/-- A zero is printed in front of others. -/
theorem Printed.zero (h : Printed procedures level first n rest) :
    Printed procedures level first n (.zero :: rest) := by
  obtain ⟨text, bodies, printed, spaced, length, held, reads⟩ := h
  exact ⟨_, bodies, by simp [printAll, printed], .space _, length, held, .space (.zero reads)⟩

/-- A loop is printed in front of others if its body is printed. -/
theorem Printed.loop (inside : Printed procedures level first m body)
    (h : Printed procedures level (first + m) n rest) :
    Printed procedures level first (m + n) (.loop body :: rest) := by
  obtain ⟨text, defined, printed, spaced, rfl, held, reads⟩ := inside
  obtain ⟨text', bodies, printed', spaced', rfl, held', reads'⟩ := h
  exact ⟨_, defined ++ bodies, by simp [printAll, printed, printed'], .space _, List.length_append,
    held.append held', .space (.loop spaced reads reads')⟩

/-- A registration is printed in front of others if the body of its procedure is printed. -/
theorem Printed.register {q : Procedure} (found : procedures[first]? = some q)
    (inside : Printed procedures level (first + 1) m q.body)
    (h : Printed procedures (level + 1) (first + 1 + m) n rest) :
    Printed procedures (level + 1) first (m + n + 1) (.register first :: rest) := by
  obtain ⟨text, defined, printed, spaced, rfl, held, reads⟩ := inside
  obtain ⟨text', bodies, printed', spaced', rfl, held', reads'⟩ := h
  exact ⟨_, q.body :: (defined ++ bodies), by simp [printAll, found, printed, printed'], .space _,
    by simp, .cons found (held.append held'), .space (.procedure reads reads')⟩

/-- In nodes that a source has, what is no loop and registers nothing is a zero or has an
operator. -/
theorem item?_of_isWritten (h : isWritten (node :: rest) = true)
    (noSequence : ∀ body, node ≠ .sequence body) (noLoop : ∀ body, node ≠ .loop body)
    (noRegister : ∀ id, node ≠ .register id) :
    isWritten rest = true ∧ (node = .zero ∨ ∃ kind count, node.item? = some (kind, count)) := by
  cases node with
  | sequence body => exact absurd rfl (noSequence body)
  | loop body => exact absurd rfl (noLoop body)
  | register id => exact absurd rfl (noRegister id)
  | procedure => simp [isWritten] at h
  | move delta =>
    simp only [isWritten, Bool.and_eq_true, bne_iff_ne] at h
    exact ⟨h.2, .inr (Item.exists_signed _ _ h.1)⟩
  | amend delta =>
    simp only [isWritten, Bool.and_eq_true, bne_iff_ne] at h
    exact ⟨h.2, .inr (Item.exists_signed _ _ h.1)⟩
  | zero => exact ⟨by simpa [isWritten] using h, .inl rfl⟩
  | read | write | call => exact ⟨by simpa [isWritten] using h, .inr ⟨_, _, rfl⟩⟩

/-- What registers procedures in the order of their numbers is printed, and read back. -/
theorem printed_of_order (written : isWritten nodes = true)
    (defined : ∀ q ∈ procedures, isWritten q.body = true)
    (ordered : order procedures level nodes = some (Procedure.numbers first n)) :
    Printed procedures level first n nodes := by
  -- Printing goes where the order of the numbers goes, so the induction is on the latter.
  fun_induction order procedures level nodes generalizing first n with
  | case1 level =>
    have none : n = 0 := by simpa [Procedure.numbers] using ordered
    subst none
    exact .nil
  | case2 => simp [isWritten] at written
  | case3 level body rest ihBody ih =>
    simp only [isWritten, Bool.and_eq_true] at written
    obtain ⟨inner, inside, ordered⟩ := Option.bind_eq_some_iff.1 ordered
    obtain ⟨after, later, ordered⟩ := Option.bind_eq_some_iff.1 ordered
    obtain ⟨m, k, rfl, rfl, rfl⟩ := Procedure.numbers_eq_append (Option.some.inj ordered).symm
    exact .loop (ihBody written.1 inside) (ih written.2 later)
  | case4 => cases ordered
  | case5 id rest level goOn positive ihBody =>
    rename_i ih
    obtain ⟨q, found, ordered⟩ := Option.bind_eq_some_iff.1 ordered
    obtain ⟨inner, inside, ordered⟩ := Option.bind_eq_some_iff.1 ordered
    obtain ⟨after, later, ordered⟩ := Option.bind_eq_some_iff.1 ordered
    -- The number in hand is the first that comes.
    obtain ⟨n, rfl, rfl, same⟩ := Procedure.numbers_eq_cons (Option.some.inj ordered).symm
    obtain ⟨m, k, rfl, rfl, rfl⟩ := Procedure.numbers_eq_append same
    have found : procedures[first]? = some q := by simpa using found
    simp only [isWritten] at written
    exact .register found (ihBody q (defined q (List.mem_of_getElem? found)) inside)
      (ih written later)
  | case6 => cases ordered
  | case7 level node rest noSequence noLoop noRegister ih =>
    obtain ⟨others, rfl | ⟨kind, count, operator⟩⟩ :=
      item?_of_isWritten written noSequence noLoop noRegister
    · exact .zero (ih others ordered)
    · exact .leaf (ih others ordered) operator

end Node

/-- **Every well-formed program is read back from what is printed.** -/
theorem Program.parse_print {p : Program} (h : p.WellFormed) :
    ∃ text, p.print = some text ∧ parse text = .ok p := by
  obtain ⟨writtenMain, writtenProcedures⟩ := List.forall_mem_cons.1 h.written
  have ordered : Node.order p.procedures p.procedures.length p.main =
      some (Procedure.numbers 0 p.procedures.length) := by
    rw [Procedure.numbers, ← List.range_eq_range']
    exact h.ordered
  obtain ⟨text, bodies, printed, -, length, ⟨others, held⟩, reads⟩ :=
    Node.printed_of_order writtenMain (fun q hq => writtenProcedures _ (List.mem_map_of_mem hq))
      ordered
  have own : p.procedures.map Procedure.body = bodies := by
    rw [List.drop_zero] at held
    have none : others = [] := by
      have lengths := congrArg List.length held
      rw [List.length_map, List.length_append, length] at lengths
      exact List.length_eq_zero_iff.1 (by omega)
    rw [held, none, List.append_nil]
  have reads := reads (Located.ofBytes text) (Located.map_byte_ofBytes text)
  have procedures : p.procedures = numbered bodies.toArray := by
    apply List.ext_getElem?
    intro i
    rw [getElem?_numbered, ← own, List.getElem?_map, Option.map_map]
    cases found : p.procedures[i]? with
    | none => rfl
    | some q =>
      have number := h.numbered i q found
      rw [Option.map_some, Function.comp_apply, ← number]
  have calls : p.calls = Source.callCount text := by
    rw [h.calls, Program.callCount, Program.bodies, own, List.map_cons, List.sum_cons,
      reads.callCount_eq, callCount_ofBytes]
  refine ⟨text, printed, parse_eq_ok_iff.2 ⟨p.main, bodies, reads, ?_⟩⟩
  rw [← procedures, ← calls]

/-- A loop around a decrement next to a zero, and procedures inside each other. -/
theorem Program.parse_print_nested :
    let p : Program := {
      main := [.loop [.amend (-1)], .zero, .register 0, .call]
      procedures := [⟨0, [.move 2, .loop [.register 1]]⟩, ⟨1, [.write]⟩]
      calls := 1 }
    p.WellFormed ∧ ∃ text, p.print = some text ∧ parse text = .ok p := by
  intro p
  have wellFormed : p.WellFormed := by
    constructor
    · simp [p, bodies, Node.isWritten]
    · intro i q found
      rcases i with _ | _ | i
      · cases found
        rfl
      · cases found
        rfl
      · cases found
    · simp [p, order, Node.order, List.range, List.range.loop]
    · simp [p, callCount, bodies, Node.callCount]
  exact ⟨wellFormed, parse_print wellFormed⟩

example :
    Program.print ⟨[.loop [.amend (-1)], .zero, .move (-2), .register 0], [⟨0, [.write]⟩], 0⟩ =
    some " [ -] [-] << ( .)".toUTF8.toList := by
  cbv

end TapeLang
