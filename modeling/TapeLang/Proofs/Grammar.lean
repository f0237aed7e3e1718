/-
# The grammar of sources

What a source reads as, given by rules instead of a reader: `Reads` relates the bytes of a body to
its nodes and to the bodies of the procedures defined in it, the outermost first, which are numbered
from `first` on. A loop or a procedure is a body between two brackets, and nothing is said about how
its closing bracket is found. Reading follows the rules exactly: `Program.parse_eq_ok_iff`.

Counting brackets of one kind finds the right partner of a bracket, since what stands between the
two has a reading of its own and hence as many opening as closing brackets: `Reads.passes`.
-/
import Mathlib
import TapeLang.Program.Parser

namespace TapeLang

/-! ## Operators and brackets -/

namespace Token.Kind

/-- The byte of an operator. Comment has no byte of its own, and is given one that is no
operator. -/
def operator : Kind → UInt8
  | forward => '>'.toUInt8
  | back => '<'.toUInt8
  | increment => '+'.toUInt8
  | decrement => '-'.toUInt8
  | read => ','.toUInt8
  | write => '.'.toUInt8
  | loopOpen => '['.toUInt8
  | loopClose => ']'.toUInt8
  | procOpen => '('.toUInt8
  | procClose => ')'.toUInt8
  | call => ':'.toUInt8
  | comment => ' '.toUInt8

@[simp] theorem ofByte_operator (k : Kind) : ofByte k.operator = k := by
  cases k <;> rfl

/-- Different bytes are different characters. -/
theorem ofUInt8_inj {a b : UInt8} (h : Char.ofUInt8 a = Char.ofUInt8 b) : a = b := by
  have value : a.toUInt32 = b.toUInt32 := congrArg Char.val h
  have number := congrArg UInt32.toNat value
  apply UInt8.toNat.inj
  simpa using number

/-- An operator is one byte only. -/
theorem eq_operator {b : UInt8} (h : ofByte b ≠ comment) : b = (ofByte b).operator := by
  unfold ofByte at h ⊢
  split at h
  case h_12 => exact absurd rfl h
  all_goals exact ofUInt8_inj (by assumption)

/-- A byte is of a kind other than comment exactly when it is the operator of this kind. -/
theorem ofByte_eq_iff {b : UInt8} {k : Kind} (hk : k ≠ comment) :
    ofByte b = k ↔ b = k.operator := by
  constructor
  · rintro rfl
    exact eq_operator hk
  · rintro rfl
    exact ofByte_operator k

end Token.Kind

/-- The two kinds of brackets. -/
inductive Bracket where
  | loop
  | procedure
deriving DecidableEq

namespace Bracket

/-- What the opening bracket stands for. -/
def openingKind : Bracket → Token.Kind
  | loop => .loopOpen
  | procedure => .procOpen

/-- What the closing bracket stands for. -/
def closingKind : Bracket → Token.Kind
  | loop => .loopClose
  | procedure => .procClose

/-- The byte that opens. -/
def opening : Bracket → UInt8
  | loop => '['.toUInt8
  | procedure => '('.toUInt8

/-- The byte that closes. -/
def closing : Bracket → UInt8
  | loop => ']'.toUInt8
  | procedure => ')'.toUInt8

/-- Whether a byte is a bracket. -/
def isBracket (b : UInt8) : Bool :=
  b ∈ [loop.opening, loop.closing, procedure.opening, procedure.closing]

theorem ofByte_eq_openingKind {b : UInt8} (k : Bracket) :
    Token.Kind.ofByte b = k.openingKind ↔ b = k.opening := by
  cases k
  · exact Token.Kind.ofByte_eq_iff (by decide)
  · exact Token.Kind.ofByte_eq_iff (by decide)

theorem ofByte_eq_closingKind {b : UInt8} (k : Bracket) :
    Token.Kind.ofByte b = k.closingKind ↔ b = k.closing := by
  cases k
  · exact Token.Kind.ofByte_eq_iff (by decide)
  · exact Token.Kind.ofByte_eq_iff (by decide)

/-- The brackets are the opening and closing ones of the two kinds. -/
theorem isBracket_iff {b : UInt8} :
    isBracket b = true ↔ ∃ k : Bracket, b = k.opening ∨ b = k.closing := by
  constructor
  · intro h
    simp only [isBracket, List.mem_cons, List.not_mem_nil, or_false, decide_eq_true_eq] at h
    rcases h with h | h | h | h
    · exact ⟨loop, .inl h⟩
    · exact ⟨loop, .inr h⟩
    · exact ⟨procedure, .inl h⟩
    · exact ⟨procedure, .inr h⟩
  · rintro ⟨k, rfl | rfl⟩ <;> cases k <;> decide

/-- A byte that neither opens nor closes is no bracket. -/
theorem isBracket_eq_false {b : UInt8}
    (h : ∀ k : Bracket, Token.Kind.ofByte b ≠ k.openingKind ∧ Token.Kind.ofByte b ≠ k.closingKind) :
    isBracket b = false := by
  rw [← Bool.not_eq_true, isBracket_iff]
  rintro ⟨k, opens | closes⟩
  · exact (h k).1 ((ofByte_eq_openingKind k).2 opens)
  · exact (h k).2 ((ofByte_eq_closingKind k).2 closes)

end Bracket

/-! ## The rules -/

/-- The node of a run of an amount operator. -/
def Node.ofRun? (count : Int) : Token.Kind → Option Node
  | .increment => some (.amend count)
  | .decrement => some (.amend (-count))
  | .forward => some (.move count)
  | .back => some (.move (-count))
  | _ => none

/-- The node of an operator that stands for itself. -/
def Node.ofOperator? : Token.Kind → Option Node
  | .read => some .read
  | .write => some .write
  | .call => some .call
  | _ => none

/-- What a body reads as: its nodes, and the bodies of the procedures defined in it, which are
numbered from `first` on in the order of their opening brackets. -/
inductive Reads : Nat → List Located → List Node → List (List Node) → Prop
  | nil {first : Nat} : Reads first [] [] []
  | comment {first : Nat} {x : Located} {source : List Located} {nodes : List Node}
      {bodies : List (List Node)} :
      x.kind = .comment → Reads first source nodes bodies → Reads first (x :: source) nodes bodies
  | run {first : Nat} {x : Located} {source : List Located} {node : Node} {nodes : List Node}
      {bodies : List (List Node)} :
      Node.ofRun? (Program.runLength x source) x.kind = some node →
      Reads first (Program.afterRun x source) nodes bodies →
      Reads first (x :: source) (node :: nodes) bodies
  | operator {first : Nat} {x : Located} {source : List Located} {node : Node} {nodes : List Node}
      {bodies : List (List Node)} :
      Node.ofOperator? x.kind = some node → Reads first source nodes bodies →
      Reads first (x :: source) (node :: nodes) bodies
  | zero {first : Nat} {x y z : Located} {source : List Located} {nodes : List Node}
      {bodies : List (List Node)} :
      x.kind = .loopOpen → y.kind = .decrement → z.kind = .loopClose →
      Reads first source nodes bodies → Reads first (x :: y :: z :: source) (.zero :: nodes) bodies
  | loop {first : Nat} {x z : Located} {body source : List Located} {inner nodes : List Node}
      {defined bodies : List (List Node)} :
      x.kind = .loopOpen → z.kind = .loopClose → (∀ y, body = [y] → y.kind ≠ .decrement) →
      Reads first body inner defined → Reads (first + defined.length) source nodes bodies →
      Reads first (x :: (body ++ z :: source)) (.loop inner :: nodes) (defined ++ bodies)
  | procedure {first : Nat} {x z : Located} {body source : List Located} {inner nodes : List Node}
      {defined bodies : List (List Node)} :
      x.kind = .procOpen → z.kind = .procClose →
      Reads (first + 1) body inner defined →
      Reads (first + 1 + defined.length) source nodes bodies →
      Reads first (x :: (body ++ z :: source)) (.register first :: nodes)
        (inner :: (defined ++ bodies))

/-! ## Counting brackets of one kind -/

namespace Bracket

variable {k : Bracket} {depth : Nat} {before rest : List Located} {x : Located}

theorem openingKind_ne_closingKind (j k : Bracket) : j.openingKind ≠ k.closingKind := by
  cases j <;> cases k <;> decide

theorem openingKind_inj {j k : Bracket} (h : j.openingKind = k.openingKind) : j = k := by
  cases j <;> cases k <;> first | rfl | cases h

theorem closingKind_inj {j k : Bracket} (h : j.closingKind = k.closingKind) : j = k := by
  cases j <;> cases k <;> first | rfl | cases h

/-- Capturing counts an opening bracket of its own kind up. -/
theorem capture_opening (h : x.kind = k.openingKind) :
    Program.capture k.openingKind k.closingKind depth before (x :: rest) =
      Program.capture k.openingKind k.closingKind (depth + 1) (x :: before) rest := by
  rw [Program.capture.eq_def]
  exact if_pos h

/-- Capturing runs over everything but the brackets of its own kind. -/
theorem capture_other (opens : x.kind ≠ k.openingKind) (closes : x.kind ≠ k.closingKind) :
    Program.capture k.openingKind k.closingKind depth before (x :: rest) =
      Program.capture k.openingKind k.closingKind depth (x :: before) rest := by
  rw [Program.capture.eq_def]
  exact (if_neg opens).trans (if_neg closes)

/-- Capturing ends at the closing bracket of depth 0 and counts any other down. -/
theorem capture_closing (h : x.kind = k.closingKind) :
    Program.capture k.openingKind k.closingKind depth before (x :: rest) =
      match depth with
      | 0 => some (before.reverse, rest)
      | depth + 1 => Program.capture k.openingKind k.closingKind depth (x :: before) rest := by
  have opens : x.kind ≠ k.openingKind := by
    rw [h]
    exact (openingKind_ne_closingKind k k).symm
  rw [Program.capture.eq_def]
  exact (if_neg opens).trans (if_pos h)

/-- A stretch of the source that a capture runs over without a change of its depth. -/
def Passes (k : Bracket) (stretch : List Located) : Prop :=
  ∀ (depth : Nat) (before rest : List Located),
    Program.capture k.openingKind k.closingKind depth before (stretch ++ rest) =
      Program.capture k.openingKind k.closingKind depth (stretch.reverse ++ before) rest

theorem Passes.nil : k.Passes [] := fun _ _ _ => rfl

/-- Stretches that are run over are so one after another. -/
theorem Passes.append {a b : List Located} (ha : k.Passes a) (hb : k.Passes b) :
    k.Passes (a ++ b) := by
  intro depth before rest
  rw [List.append_assoc, ha, hb, List.reverse_append, List.append_assoc]

theorem Passes.cons_other {x : Located} {stretch : List Located} (opens : x.kind ≠ k.openingKind)
    (closes : x.kind ≠ k.closingKind) (h : k.Passes stretch) : k.Passes (x :: stretch) := by
  intro depth before rest
  rw [List.cons_append, capture_other opens closes, h, List.reverse_cons, List.append_assoc,
    List.singleton_append]

/-- A pair of brackets of either kind is run over, when what it holds is. -/
theorem Passes.pair {j : Bracket} {x z : Located} {inner : List Located}
    (opens : x.kind = j.openingKind) (closes : z.kind = j.closingKind) (h : k.Passes inner) :
    k.Passes (x :: (inner ++ [z])) := by
  by_cases same : j = k
  · -- The opening bracket takes the count up and its partner takes it down again.
    subst same
    intro depth before rest
    rw [List.cons_append, List.append_assoc, capture_opening opens, h, List.singleton_append,
      capture_closing closes]
    simp
  · have last : k.Passes [z] := by
      refine Passes.cons_other ?_ ?_ Passes.nil
      · rw [closes]
        exact (openingKind_ne_closingKind k j).symm
      · rw [closes]
        exact fun h => same (closingKind_inj h)
    refine Passes.cons_other ?_ ?_ (h.append last)
    · rw [opens]
      exact fun h => same (openingKind_inj h)
    · rw [opens]
      exact openingKind_ne_closingKind j k

/-- Behind a stretch that is run over, the capture ends at the first closing bracket. -/
theorem Passes.capture {body rest : List Located} {z : Located} (h : k.Passes body)
    (closes : z.kind = k.closingKind) :
    Program.capture k.openingKind k.closingKind 0 [] (body ++ z :: rest) = some (body, rest) := by
  rw [h, capture_closing closes]
  simp

end Bracket

/-- The run of an operator repeats its byte. -/
theorem Program.byte_of_mem_runOf {x y : Located} {source : List Located} (h : y ∈ runOf x source) :
    y.byte = x.byte := by
  have same := List.all_takeWhile (p := fun y : Located => y.byte == x.byte) (l := source)
  rw [List.all_eq_true] at same
  exact beq_iff_eq.1 (same y h)

/-- A run and what is behind it make up the source. -/
theorem Program.runOf_append_afterRun (x : Located) (source : List Located) :
    runOf x source ++ afterRun x source = source :=
  List.takeWhile_append_dropWhile

namespace Bracket

variable {b : UInt8} {node : Node}

/-- Comment is no bracket. -/
theorem isBracket_of_comment (h : Token.Kind.ofByte b = .comment) : isBracket b = false := by
  refine isBracket_eq_false fun k => ?_
  rw [h]
  cases k <;> decide

/-- An operator that makes runs is no bracket. -/
theorem isBracket_of_run {count : Int} (h : Node.ofRun? count (Token.Kind.ofByte b) = some node) :
    isBracket b = false := by
  refine isBracket_eq_false fun k => ⟨?_, ?_⟩
  all_goals
    intro same
    rw [same] at h
    cases k <;> cases h

/-- A single operator is no bracket. -/
theorem isBracket_of_operator (h : Node.ofOperator? (Token.Kind.ofByte b) = some node) :
    isBracket b = false := by
  refine isBracket_eq_false fun k => ⟨?_, ?_⟩
  all_goals
    intro same
    rw [same] at h
    cases k <;> cases h

/-- A run and the operator in front of it hold no bracket. -/
theorem isBracket_of_mem_run {count : Int} {x y : Located} {source : List Located}
    (h : Node.ofRun? count x.kind = some node) (hy : y ∈ x :: Program.runOf x source) :
    isBracket y.byte = false := by
  rcases List.mem_cons.1 hy with rfl | hy
  · exact isBracket_of_run h
  · rw [Program.byte_of_mem_runOf hy]
    exact isBracket_of_run h

/-- A stretch without brackets is run over. -/
theorem Passes.plain {k : Bracket} {stretch : List Located}
    (h : ∀ y ∈ stretch, isBracket y.byte = false) : k.Passes stretch := by
  induction stretch with
  | nil => exact Passes.nil
  | cons y stretch ih =>
    have plain : isBracket y.byte ≠ true := by simp [h y]
    refine Passes.cons_other ?_ ?_ (ih fun z hz => h z (List.mem_cons_of_mem _ hz))
    · exact fun opens => plain (isBracket_iff.2 ⟨k, .inl ((ofByte_eq_openingKind k).1 opens)⟩)
    · exact fun closes => plain (isBracket_iff.2 ⟨k, .inr ((ofByte_eq_closingKind k).1 closes)⟩)

end Bracket

namespace Reads

variable {first : Nat} {x z : Located} {source body : List Located} {nodes : List Node}
  {bodies : List (List Node)}

/-- **Counting the brackets of one kind finds the right partner**: what can be read is run over. -/
theorem passes (k : Bracket) (h : Reads first source nodes bodies) : k.Passes source := by
  induction h with
  | nil => exact Bracket.Passes.nil
  | @comment _ x _ _ _ hx _ ih =>
    have plain : k.Passes [x] :=
      Bracket.Passes.plain (by simpa using Bracket.isBracket_of_comment hx)
    exact plain.append ih
  | @run _ x source _ _ _ hx _ ih =>
    have plain : k.Passes (x :: Program.runOf x source) :=
      Bracket.Passes.plain fun _ hy => Bracket.isBracket_of_mem_run hx hy
    simpa only [List.cons_append, Program.runOf_append_afterRun] using plain.append ih
  | @operator _ x _ _ _ _ hx _ ih =>
    have plain : k.Passes [x] :=
      Bracket.Passes.plain (by simpa using Bracket.isBracket_of_operator hx)
    exact plain.append ih
  | @zero _ x y z _ _ _ hx hy hz _ ih =>
    have one : Node.ofRun? 1 y.kind = some (.amend (-1)) := by rw [hy]; rfl
    have inner : k.Passes [y] := Bracket.Passes.plain (by simpa using Bracket.isBracket_of_run one)
    exact (Bracket.Passes.pair (j := .loop) hx hz inner).append ih
  | @loop _ x z body source _ _ _ _ hx hz _ _ _ ihBody ih =>
    have whole := (Bracket.Passes.pair (j := .loop) hx hz ihBody).append ih
    simpa using whole
  | @procedure _ x z body source _ _ _ _ hx hz _ _ ihBody ih =>
    have whole := (Bracket.Passes.pair (j := .procedure) hx hz ihBody).append ih
    simpa using whole

/-- No reading begins with a closing bracket. -/
theorem not_closing (k : Bracket) (h : Reads first (x :: source) nodes bodies) :
    x.kind ≠ k.closingKind := by
  intro closes
  cases h with
  | comment hx | zero hx | loop hx | procedure hx =>
    rw [hx] at closes
    cases k <;> cases closes
  | run hx | operator hx =>
    rw [closes] at hx
    cases k <;> cases hx

/-- A loop whose body is not a single decrement is not taken for one that is. -/
theorem afterZeroLoop?_eq_none (h : Reads first body nodes bodies) (closes : z.kind = .loopClose)
    (single : ∀ y, body = [y] → y.kind ≠ .decrement) :
    Program.afterZeroLoop? (body ++ z :: source) = none := by
  match body with
  | [] =>
    cases source with
    | nil => rfl
    | cons y source => simp [Program.afterZeroLoop?, closes]
  | [y] => simp [Program.afterZeroLoop?, single y rfl]
  | y :: y' :: body =>
    simp only [List.cons_append, Program.afterZeroLoop?]
    rw [if_neg]
    rintro ⟨less, closed⟩
    -- The decrement is a run of its own, and nothing reads on from the closing bracket behind it.
    generalize tail : y' :: body = rest at h
    cases h with
    | comment hx | zero hx | loop hx | procedure hx => simp [less] at hx
    | operator hx => simp [less, Node.ofOperator?] at hx
    | run _ rest =>
      subst tail
      have other : (y'.byte == y.byte) = false := by
        rw [beq_eq_false_iff_ne]
        intro same
        have kinds : y'.kind = y.kind := congrArg Token.Kind.ofByte same
        rw [less, closed] at kinds
        cases kinds
      rw [Program.afterRun, List.dropWhile_cons_of_neg (by simp [other])] at rest
      exact rest.not_closing .loop closed

end Reads

/-! ## Reading follows the rules -/

namespace Program

variable {first : Nat} {nodes : List Node} {procedures : Array (List Node)} {x : Located}
  {source rest : List Located} {result : List Node × Array (List Node)}

/-- A captured body stands in front of a closing bracket of its kind. -/
theorem eq_append_of_capture {opening closing : Token.Kind} {depth : Nat}
    {before source body rest : List Located}
    (h : capture opening closing depth before source = some (body, rest)) :
    ∃ passed z, z.kind = closing ∧ source = passed ++ z :: rest ∧
      body = before.reverse ++ passed := by
  induction source generalizing depth before with
  | nil => simp [capture] at h
  | cons x source ih =>
    -- Where the capture goes on, the byte in hand is the first of those it passes.
    have goOn : ∀ {depth : Nat},
        capture opening closing depth (x :: before) source = some (body, rest) →
        ∃ passed z, z.kind = closing ∧ x :: source = passed ++ z :: rest ∧
          body = before.reverse ++ passed := by
      intro depth h
      obtain ⟨passed, z, hz, rfl, rfl⟩ := ih h
      exact ⟨x :: passed, z, hz, rfl, by simp⟩
    unfold capture at h
    split at h
    · exact goOn h
    · split at h
      · rename_i closes
        cases depth with
        | zero =>
          simp only [Option.some.injEq, Prod.mk.injEq] at h
          obtain ⟨rfl, rfl⟩ := h
          exact ⟨[], x, closes, rfl, by simp⟩
        | succ depth => exact goOn h
      · exact goOn h

/-- What reading the rest of a body gives by the rules, on top of what was read before. -/
def Continues (first : Nat) (nodes : List Node) (procedures : Array (List Node))
    (source : List Located) (result : List Node × Array (List Node)) : Prop :=
  ∃ more bodies, Reads (first + procedures.size) source more bodies ∧
    result.1 = nodes.reverse ++ more ∧ result.2.toList = procedures.toList ++ bodies

/-- A run is one node of the body. -/
theorem Continues.run {node : Node} (hx : Node.ofRun? (runLength x rest) x.kind = some node)
    (h : Continues first (node :: nodes) procedures (afterRun x rest) result) :
    Continues first nodes procedures (x :: rest) result := by
  obtain ⟨more, bodies, reads, main, defined⟩ := h
  exact ⟨node :: more, bodies, .run hx reads, by simpa using main, defined⟩

/-- A single operator is one node of the body. -/
theorem Continues.operator {node : Node} (hx : Node.ofOperator? x.kind = some node)
    (h : Continues first (node :: nodes) procedures rest result) :
    Continues first nodes procedures (x :: rest) result := by
  obtain ⟨more, bodies, reads, main, defined⟩ := h
  exact ⟨node :: more, bodies, .operator hx reads, by simpa using main, defined⟩

/-- A loop that holds one decrement is a zero. -/
theorem Continues.zero {after : List Located} (hx : x.kind = .loopOpen)
    (hz : afterZeroLoop? rest = some after)
    (h : Continues first (.zero :: nodes) procedures after result) :
    Continues first nodes procedures (x :: rest) result := by
  obtain ⟨more, bodies, reads, main, defined⟩ := h
  match rest with
  | [] | [_] => simp [afterZeroLoop?] at hz
  | y :: z :: rest =>
    simp only [afterZeroLoop?, Option.ite_none_right_eq_some, Option.some.injEq] at hz
    obtain ⟨⟨less, closes⟩, rfl⟩ := hz
    exact ⟨.zero :: more, bodies, .zero hx less closes reads, by simpa using main, defined⟩

/-- Any other loop is a node with its body, which defines its procedures before the rest does. -/
theorem Continues.loop {body after : List Located} {inner : List Node} {defined : Array (List Node)}
    (hx : x.kind = .loopOpen) (hz : afterZeroLoop? rest = none)
    (hc : capture .loopOpen .loopClose 0 [] rest = some (body, after))
    (hb : Continues (first + procedures.size) [] #[] body (inner, defined))
    (h : Continues first (.loop inner :: nodes) (procedures ++ defined) after result) :
    Continues first nodes procedures (x :: rest) result := by
  obtain ⟨_, z, closes, rfl, rfl⟩ := eq_append_of_capture hc
  obtain ⟨inner, own, within, rfl, same⟩ := hb
  obtain ⟨more, bodies, reads, main, later⟩ := h
  have listed : defined.toList = own := same
  have size : defined.size = own.length := by rw [← listed, Array.length_toList]
  simp only [Array.size_append, size, ← Nat.add_assoc] at reads
  refine ⟨.loop inner :: more, own ++ bodies, .loop hx closes ?_ within reads, ?_, ?_⟩
  · -- A single decrement would have been taken by the shortcut.
    rintro y rfl less
    simp [afterZeroLoop?, less, closes] at hz
  · simpa using main
  · simpa [listed] using later

/-- A procedure is registered by the next number and defined before those inside it. -/
theorem Continues.procedure {body after : List Located} {inner : List Node}
    {defined : Array (List Node)} (hx : x.kind = .procOpen)
    (hc : capture .procOpen .procClose 0 [] rest = some (body, after))
    (hb : Continues (first + procedures.size + 1) [] #[] body (inner, defined))
    (h : Continues first (.register (first + procedures.size : Nat) :: nodes)
      (procedures.push inner ++ defined) after result) :
    Continues first nodes procedures (x :: rest) result := by
  obtain ⟨_, z, closes, rfl, rfl⟩ := eq_append_of_capture hc
  obtain ⟨inner, own, within, rfl, same⟩ := hb
  obtain ⟨more, bodies, reads, main, later⟩ := h
  have listed : defined.toList = own := same
  have size : defined.size = own.length := by rw [← listed, Array.length_toList]
  simp only [Array.size_append, Array.size_push, size, ← Nat.add_assoc] at reads
  refine ⟨.register _ :: more, inner :: (own ++ bodies), .procedure hx closes within reads, ?_, ?_⟩
  · simpa using main
  · simpa [listed] using later

/-- Reading gives what the rules give. -/
theorem continues_of_parseBody (h : parseBody first nodes procedures source = .ok result) :
    Continues first nodes procedures source result := by
  -- In all cases without a name reading stops with an error.
  fun_induction parseBody first nodes procedures source generalizing result with
  | case1 =>
    cases h
    exact ⟨[], [], .nil, by simp, by simp⟩
  | case2 _ _ _ _ _ hx _ ih | case3 _ _ _ _ _ hx _ ih | case4 _ _ _ _ _ hx _ ih
  | case5 _ _ _ _ _ hx _ ih => exact .run (by rw [hx]; rfl) (ih h)
  | case6 _ _ _ _ _ hx ih | case7 _ _ _ _ _ hx ih | case8 _ _ _ _ _ hx ih =>
    exact .operator (by rw [hx]; rfl) (ih h)
  | case9 _ _ _ _ _ hx ih =>
    obtain ⟨more, bodies, reads, main, defined⟩ := ih h
    exact ⟨more, bodies, .comment hx reads, main, defined⟩
  | case12 _ _ _ _ _ hx _ hz _ ih => exact .zero hx hz (ih h)
  | case15 _ _ _ _ _ hx hz _ _ hc _ _ _ hb ihBody ih => exact .loop hx hz hc (ihBody hb) (ih h)
  | case18 _ _ _ _ _ hx _ _ hc _ _ _ hb ihBody ih => exact .procedure hx hc (ihBody hb) (ih h)
  | _ => cases h

/-! The step of reading at each kind of operator. -/

/-- A run is read as one node. -/
theorem parseBody_run {node : Node} (hx : Node.ofRun? (runLength x rest) x.kind = some node) :
    parseBody first nodes procedures (x :: rest) =
      parseBody first (node :: nodes) procedures (afterRun x rest) := by
  generalize kind : x.kind = k at hx
  cases k <;> simp only [Node.ofRun?, Option.some.injEq, reduceCtorEq] at hx
  all_goals
    subst hx
    simp only [parseBody, kind]

/-- A single operator is read as one node. -/
theorem parseBody_operator {node : Node} (hx : Node.ofOperator? x.kind = some node) :
    parseBody first nodes procedures (x :: rest) =
      parseBody first (node :: nodes) procedures rest := by
  generalize kind : x.kind = k at hx
  cases k <;> simp only [Node.ofOperator?, Option.some.injEq, reduceCtorEq] at hx
  all_goals
    subst hx
    simp only [parseBody, kind]

/-- A loop that holds one decrement is read as a zero. -/
theorem parseBody_zero {after : List Located} (hx : x.kind = .loopOpen)
    (hz : afterZeroLoop? rest = some after) :
    parseBody first nodes procedures (x :: rest) =
      parseBody first (.zero :: nodes) procedures after := by
  rw [parseBody, hx]
  dsimp only
  split
  · rename_i found
    cases hz.symm.trans found
    rfl
  · rename_i missing
    cases hz.symm.trans missing

/-- Any other loop is read with the body that was captured for it. -/
theorem parseBody_loop {body after : List Located} {inner : List Node} {defined : Array (List Node)}
    (hx : x.kind = .loopOpen) (hz : afterZeroLoop? rest = none)
    (hc : capture .loopOpen .loopClose 0 [] rest = some (body, after))
    (hb : parseBody (first + procedures.size) [] #[] body = .ok (inner, defined)) :
    parseBody first nodes procedures (x :: rest) =
      parseBody first (.loop inner :: nodes) (procedures ++ defined) after := by
  rw [parseBody, hx]
  dsimp only
  split
  · rename_i found
    cases hz.symm.trans found
  · split
    · rename_i missing
      cases hc.symm.trans missing
    · rename_i found
      cases hc.symm.trans found
      rw [hb]

/-- A procedure is read with the body that was captured for it, and gets the next number. -/
theorem parseBody_procedure {body after : List Located} {inner : List Node}
    {defined : Array (List Node)} (hx : x.kind = .procOpen)
    (hc : capture .procOpen .procClose 0 [] rest = some (body, after))
    (hb : parseBody (first + procedures.size + 1) [] #[] body = .ok (inner, defined)) :
    parseBody first nodes procedures (x :: rest) =
      parseBody first (.register (first + procedures.size : Nat) :: nodes)
        (procedures.push inner ++ defined) after := by
  rw [parseBody, hx]
  dsimp only
  split
  · rename_i missing
    cases hc.symm.trans missing
  · rename_i found
    cases hc.symm.trans found
    rw [hb]

/-- The rules give what reading gives. -/
theorem parseBody_of_reads {number : Nat} {more : List Node} {bodies : List (List Node)}
    (h : Reads number source more bodies) (start : number = first + procedures.size) :
    parseBody first nodes procedures source =
      .ok (nodes.reverse ++ more, procedures ++ bodies.toArray) := by
  induction h generalizing first nodes procedures with
  | nil => simp [parseBody]
  | comment hx _ ih => simp only [parseBody, hx, ih start]
  | run hx _ ih =>
    rw [parseBody_run hx, ih start]
    simp
  | operator hx _ ih =>
    rw [parseBody_operator hx, ih start]
    simp
  | @zero _ x y z source _ _ hx hy hz _ ih =>
    have shortcut : afterZeroLoop? (y :: z :: source) = some source := by
      simp [afterZeroLoop?, hy, hz]
    rw [parseBody_zero hx shortcut, ih start]
    simp
  | loop hx hz single within _ ihBody ih =>
    subst start
    -- The body has a reading, so the capture stops just behind it.
    rw [parseBody_loop hx (within.afterZeroLoop?_eq_none hz single)
      ((within.passes .loop).capture hz) (ihBody rfl), ih]
    · simp
    · simp [Nat.add_assoc]
  | procedure hx hz within _ ihBody ih =>
    subst start
    rw [parseBody_procedure hx ((within.passes .procedure).capture hz) (ihBody rfl), ih]
    · simp
    · simp only [Array.size_append, Array.size_push, List.size_toArray, List.length_nil]
      omega

/-- **Reading follows the rules.** A source is a program just when it reads as some main body with
some procedures, which are then those of the program. -/
theorem parse_eq_ok_iff {source : List UInt8} {p : Program} :
    parse source = .ok p ↔
      ∃ main bodies, Reads 0 (Located.ofBytes source) main bodies ∧
        p = {
          main := main, procedures := numbered bodies.toArray,
          calls := Source.callCount source } := by
  constructor
  · intro h
    cases read : parseBody 0 [] #[] (Located.ofBytes source) with
    | error stop =>
      simp only [parse, parseSource, Source.ofBytes, read] at h
      cases h
    | ok result =>
      obtain ⟨main, bodies, reads, first, second⟩ := continues_of_parseBody read
      have listed : result = (main, bodies.toArray) :=
        Prod.ext (by simpa using first) (Array.ext' (by simpa using second))
      simp only [parse, parseSource, Source.ofBytes, read, listed, Except.ok.injEq] at h
      exact ⟨main, bodies, by simpa using reads, h.symm⟩
  · rintro ⟨main, bodies, reads, rfl⟩
    have read : parseBody 0 [] #[] (Located.ofBytes source) = _ := parseBody_of_reads reads rfl
    simp only [parse, parseSource, Source.ofBytes, read, List.reverse_nil, List.nil_append,
      Array.empty_append]

end Program

end TapeLang
