/-
# Comments

Leaving out all comments changes the program of a source: operators that a comment held apart become
one run, and a loop whose decrement had comments beside it becomes a zero. It changes neither
whether the source is a program, nor which bracket is reported if it is not, nor how the program
behaves: `build_strip`.

Both programs are compared with one that is read from the source operator by operator, without runs
and zeros, `Spells`. That one does not see comments at all, and the program of a source comes from
it by adding up runs and by taking loops for zeros, `Reads.of_spells`, neither of which changes what
a run shows.
-/
import TapeLang.Proofs.Flaws
import TapeLang.Proofs.Rewriting
import TapeLang.Proofs.Safety

namespace TapeLang

/-! ## Bytes that are kept -/

/-- The eleven operators. -/
def Token.operators : List UInt8 :=
  ['+', '-', '<', '>', ',', '.', '[', ']', '(', ')', ':'].map Char.toUInt8

/-- A source without its comments. -/
def Source.strip (source : List UInt8) : List UInt8 :=
  source.filter (· ∈ Token.operators)

/-- The bytes that are operators are those that are not comment. -/
theorem Token.mem_operators_iff {b : UInt8} : b ∈ operators ↔ Kind.ofByte b ≠ .comment := by
  constructor
  · intro member comment
    have listed : operators =
        [Kind.increment, .decrement, .back, .forward, .read, .write, .loopOpen,
        .loopClose, .procOpen, .procClose, .call].map Kind.operator := rfl
    rw [listed, List.mem_map] at member
    obtain ⟨kind, known, rfl⟩ := member
    rw [Kind.ofByte_operator] at comment
    subst comment
    exact absurd known (by decide)
  · intro operator
    rw [Kind.eq_operator operator]
    generalize Kind.ofByte b = kind at operator
    cases kind with
    | comment => exact absurd rfl operator
    | _ => decide

/-- A way to leave out comments and to move the bytes that are kept to other places. -/
structure Located.Moves (move : Located → Option Located) : Prop where
  drops : ∀ x : Located, x.kind = .comment → move x = none
  keeps : ∀ x : Located, x.kind ≠ .comment → ∃ offset, move x = some ⟨x.byte, offset⟩

namespace Located.Moves

variable {move : Located → Option Located} (moves : Moves move)

include moves

/-- Comment is dropped. -/
theorem filterMap_comment {x : Located} {source : List Located} (hx : x.kind = .comment) :
    (x :: source).filterMap move = source.filterMap move :=
  List.filterMap_cons_none (moves.drops x hx)

/-- An operator is moved, and stays what it is. -/
theorem filterMap_operator {x : Located} (source : List Located) (hx : x.kind ≠ .comment) :
    ∃ y, move x = some y ∧ y.byte = x.byte ∧ y.kind = x.kind ∧
      (x :: source).filterMap move = y :: source.filterMap move := by
  obtain ⟨offset, kept⟩ := moves.keeps x hx
  exact ⟨_, kept, rfl, rfl, List.filterMap_cons_some kept⟩

/-- Moving operators keeps the word of brackets. -/
theorem wordOf_filterMap (source : List Located) :
    Bracket.wordOf (source.filterMap move) = Bracket.wordOf source := by
  induction source with
  | nil => rfl
  | cons x source ih =>
    by_cases hx : x.kind = .comment
    · rw [moves.filterMap_comment hx,
        Bracket.wordOf_cons_plain (Bracket.isBracket_of_comment hx), ih]
    · obtain ⟨y, -, byte, -, kept⟩ := moves.filterMap_operator source hx
      rw [kept]
      cases isBracket : Bracket.isBracket x.byte with
      | true =>
        rw [Bracket.wordOf_cons_bracket isBracket,
          Bracket.wordOf_cons_bracket (by rw [byte, isBracket]), ih, byte]
      | false =>
        rw [Bracket.wordOf_cons_plain isBracket,
          Bracket.wordOf_cons_plain (by rw [byte, isBracket]), ih]

/-- Comments do not matter for the partner of a bracket. -/
theorem capture_filterMap (k : Bracket) (depth : Nat) (before source : List Located) :
    Program.capture k.openingKind k.closingKind depth (before.filterMap move)
        (source.filterMap move) =
      (Program.capture k.openingKind k.closingKind depth before source).map
        (Prod.map (List.filterMap move) (List.filterMap move)) := by
  induction source generalizing depth before with
  | nil => rfl
  | cons x source ih =>
    by_cases hx : x.kind = .comment
    · have opens : x.kind ≠ k.openingKind := by
        rw [hx]
        cases k <;> decide
      have closes : x.kind ≠ k.closingKind := by
        rw [hx]
        cases k <;> decide
      rw [moves.filterMap_comment hx, Bracket.capture_other opens closes, ← ih,
        moves.filterMap_comment hx]
    · obtain ⟨y, moved, -, kind, kept⟩ := moves.filterMap_operator source hx
      have passed : (x :: before).filterMap move = y :: before.filterMap move :=
        List.filterMap_cons_some moved
      rw [kept]
      by_cases opens : x.kind = k.openingKind
      · rw [Bracket.capture_opening opens, Bracket.capture_opening (kind.trans opens), ← ih, passed]
      · by_cases closes : x.kind = k.closingKind
        · rw [Bracket.capture_closing closes, Bracket.capture_closing (kind.trans closes)]
          cases depth with
          | zero => simp [List.filterMap_reverse]
          | succ depth =>
            dsimp only
            rw [← ih, passed]
        · have opens' : y.kind ≠ k.openingKind := by rwa [kind]
          have closes' : y.kind ≠ k.closingKind := by rwa [kind]
          rw [Bracket.capture_other opens closes, Bracket.capture_other opens' closes', ← ih,
            passed]

end Located.Moves

/-! ## Sources that are no programs -/

/-- Without its comments a source fails for the same bracket. -/
theorem Fails.filterMap {move : Located → Option Located} (moves : Located.Moves move)
    {source : List Located} {e : Located} (h : Fails source e) :
    ∃ e', move e = some e' ∧ Fails (source.filterMap move) e' := by
  have bracket {k : Bracket} {x : Located} (hx : x.kind = k.openingKind ∨ x.kind = k.closingKind) :
      x.kind ≠ .comment := by
    rcases hx with hx | hx <;> rw [hx] <;> cases k <;> decide
  induction h with
  | @plain x _ source isPlain _ ih =>
    obtain ⟨e', moved, fails⟩ := ih
    by_cases hx : x.kind = .comment
    · rw [moves.filterMap_comment hx]
      exact ⟨e', moved, fails⟩
    · obtain ⟨y, -, byte, -, kept⟩ := moves.filterMap_operator source hx
      rw [kept]
      exact ⟨e', moved, .plain (by rw [byte, isPlain]) fails⟩
  | @closing k x source closes =>
    obtain ⟨y, moved, -, kind, kept⟩ := moves.filterMap_operator source (bracket (.inr closes))
    rw [kept]
    exact ⟨y, moved, .closing k (kind.trans closes)⟩
  | @unclosed k x source opens missing =>
    obtain ⟨y, moved, -, kind, kept⟩ := moves.filterMap_operator source (bracket (.inl opens))
    have found := moves.capture_filterMap k 0 [] source
    rw [missing] at found
    rw [kept]
    exact ⟨y, moved, .unclosed k (kind.trans opens) found⟩
  | @inside k x _ source body after opens capture _ ih =>
    obtain ⟨e', moved, fails⟩ := ih
    obtain ⟨y, -, -, kind, kept⟩ := moves.filterMap_operator source (bracket (.inl opens))
    have found := moves.capture_filterMap k 0 [] source
    rw [capture] at found
    rw [kept]
    exact ⟨e', moved, .inside k (kind.trans opens) found fails⟩
  | @behind k x _ source body after opens capture nested _ ih =>
    obtain ⟨e', moved, fails⟩ := ih
    obtain ⟨y, -, -, kind, kept⟩ := moves.filterMap_operator source (bracket (.inl opens))
    have found := moves.capture_filterMap k 0 [] source
    rw [capture] at found
    rw [← moves.wordOf_filterMap] at nested
    rw [kept]
    exact ⟨e', moved, .behind k (kind.trans opens) found nested fails⟩

namespace Source

/-- Where a byte of a source stands once the comments are left out, unless it is one. -/
def image (source : List UInt8) (x : Located) : Option Located :=
  if x.kind = .comment then none else some ⟨x.byte, (strip (source.take x.offset.toNat)).length⟩

/-- Taking each operator to its place in the stripped source moves it. -/
theorem moves_image (source : List UInt8) : Located.Moves (image source) where
  drops _ hx := if_pos hx
  keeps _ hx := ⟨_, if_neg hx⟩

theorem ofBytes_append_singleton (source : List UInt8) (b : UInt8) :
    Located.ofBytes (source ++ [b]) = Located.ofBytes source ++ [⟨b, source.length⟩] := by
  simp [Located.ofBytes, List.zipIdx_append]

/-- A located byte of a source stands at its offset. -/
theorem exists_of_mem_ofBytes {source : List UInt8} {x : Located}
    (member : x ∈ Located.ofBytes source) : ∃ i : Nat, x.offset = i ∧ source[i]? = some x.byte := by
  obtain ⟨⟨b, i⟩, indexed, rfl⟩ := List.mem_map.1 member
  exact ⟨i, rfl, List.mk_mem_zipIdx_iff_getElem?.1 indexed⟩

/-- The stripped source has the operators of the source, each at its new place. -/
theorem ofBytes_strip (source : List UInt8) :
    Located.ofBytes (strip source) = (Located.ofBytes source).filterMap (image source) := by
  induction source using List.reverseRecOn with
  | nil => rfl
  | append_singleton source b ih =>
    have front : (Located.ofBytes source).filterMap (image (source ++ [b])) =
        (Located.ofBytes source).filterMap (image source) := by
      apply List.filterMap_congr
      intro x member
      obtain ⟨i, offset, found⟩ := exists_of_mem_ofBytes member
      have inside : i < source.length := (List.getElem?_eq_some_iff.1 found).1
      simp only [image, offset, Int.toNat_natCast, List.take_append_of_le_length inside.le]
    rw [ofBytes_append_singleton, List.filterMap_append, front, ← ih]
    by_cases operator : b ∈ Token.operators
    · have kept : strip (source ++ [b]) = strip source ++ [b] := by simp [strip, operator]
      have here : image (source ++ [b]) ⟨b, source.length⟩ = some ⟨b, (strip source).length⟩ := by
        have kind : Located.kind ⟨b, source.length⟩ ≠ .comment := Token.mem_operators_iff.1 operator
        rw [image, if_neg kind]
        simp
      rw [kept, ofBytes_append_singleton, List.filterMap_cons_some here, List.filterMap_nil]
    · have dropped : strip (source ++ [b]) = strip source := by simp [strip, operator]
      have comment : Located.kind ⟨b, source.length⟩ = .comment := by
        rwa [Token.mem_operators_iff, not_not] at operator
      rw [dropped, (moves_image _).filterMap_comment comment, List.filterMap_nil, List.append_nil]

end Source

/-- Without its comments a source is refused for the same bracket, where that one stands then. -/
theorem Program.parse_strip_eq_error {source : List UInt8} {e : ParseError}
    (h : parse source = .error e) :
    ∃ k : Nat, e.offset = k ∧ source[k]? = some e.bracket ∧
      parse (Source.strip source) = .error ⟨e.bracket, (Source.strip (source.take k)).length⟩ := by
  have fails := parse_eq_error_iff.1 h
  obtain ⟨k, offset, found⟩ := Source.exists_of_mem_ofBytes fails.mem
  obtain ⟨e', moved, fails'⟩ := fails.filterMap (Source.moves_image source)
  refine ⟨k, offset, found, parse_eq_error_iff.2 ?_⟩
  rw [Source.ofBytes_strip]
  simp only [Source.image, Option.ite_none_left_eq_some, Option.some.injEq] at moved
  obtain ⟨-, rfl⟩ := moved
  have place : e.offset.toNat = k := (congrArg Int.toNat offset).trans (Int.toNat_natCast k)
  rwa [place] at fails'

/-! ## Reading operator by operator -/

/-- What a body reads as operator by operator: there are no runs, and a loop is a loop whatever it
holds. -/
inductive Spells : Nat → List Located → List Node → List (List Node) → Prop
  | nil {first : Nat} : Spells first [] [] []
  | comment {first : Nat} {x : Located} {source : List Located} {nodes : List Node}
      {bodies : List (List Node)} :
      x.kind = .comment → Spells first source nodes bodies → Spells first (x :: source) nodes bodies
  | amount {first : Nat} {x : Located} {source : List Located} {node : Node} {nodes : List Node}
      {bodies : List (List Node)} :
      Node.ofRun? 1 x.kind = some node → Spells first source nodes bodies →
      Spells first (x :: source) (node :: nodes) bodies
  | operator {first : Nat} {x : Located} {source : List Located} {node : Node} {nodes : List Node}
      {bodies : List (List Node)} :
      Node.ofOperator? x.kind = some node → Spells first source nodes bodies →
      Spells first (x :: source) (node :: nodes) bodies
  | loop {first : Nat} {x z : Located} {body source : List Located} {inner nodes : List Node}
      {defined bodies : List (List Node)} :
      x.kind = .loopOpen → z.kind = .loopClose →
      Spells first body inner defined → Spells (first + defined.length) source nodes bodies →
      Spells first (x :: (body ++ z :: source)) (.loop inner :: nodes) (defined ++ bodies)
  | procedure {first : Nat} {x z : Located} {body source : List Located} {inner nodes : List Node}
      {defined bodies : List (List Node)} :
      x.kind = .procOpen → z.kind = .procClose →
      Spells (first + 1) body inner defined →
      Spells (first + 1 + defined.length) source nodes bodies →
      Spells first (x :: (body ++ z :: source)) (.register first :: nodes)
        (inner :: (defined ++ bodies))

namespace Spells

variable {first : Nat} {source front : List Located} {nodes : List Node} {bodies : List (List Node)}
  {node : Node}

/-- Comments are not seen. -/
theorem filterMap {move : Located → Option Located} (moves : Located.Moves move)
    (h : Spells first source nodes bodies) : Spells first (source.filterMap move) nodes bodies := by
  induction h with
  | nil => exact .nil
  | comment hx _ ih =>
    rw [moves.filterMap_comment hx]
    exact ih
  | @amount _ x source _ _ _ hx _ ih =>
    have operator : x.kind ≠ .comment := by
      intro comment
      rw [comment] at hx
      cases hx
    obtain ⟨y, -, -, kind, kept⟩ := moves.filterMap_operator source operator
    rw [kept]
    exact .amount (by rw [kind, hx]) ih
  | @operator _ x source _ _ _ hx _ ih =>
    have operator : x.kind ≠ .comment := by
      intro comment
      rw [comment] at hx
      cases hx
    obtain ⟨y, -, -, kind, kept⟩ := moves.filterMap_operator source operator
    rw [kept]
    exact .operator (by rw [kind, hx]) ih
  | @loop _ x z body source _ _ _ _ hx hz _ _ ihBody ih =>
    obtain ⟨x', -, -, opens, kept⟩ :=
      moves.filterMap_operator (body ++ z :: source) (by rw [hx]; decide)
    obtain ⟨z', -, -, closes, kept'⟩ := moves.filterMap_operator source (by rw [hz]; decide)
    rw [kept, List.filterMap_append, kept']
    exact .loop (opens.trans hx) (closes.trans hz) ihBody ih
  | @procedure _ x z body source _ _ _ _ hx hz _ _ ihBody ih =>
    obtain ⟨x', -, -, opens, kept⟩ :=
      moves.filterMap_operator (body ++ z :: source) (by rw [hx]; decide)
    obtain ⟨z', -, -, closes, kept'⟩ := moves.filterMap_operator source (by rw [hz]; decide)
    rw [kept, List.filterMap_append, kept']
    exact .procedure (opens.trans hx) (closes.trans hz) ihBody ih

/-- A run is spelled by as many nodes. -/
theorem run (same : ∀ y ∈ front, Node.ofRun? 1 y.kind = some node)
    (h : Spells first source nodes bodies) :
    Spells first (front ++ source) (List.replicate front.length node ++ nodes) bodies := by
  induction front with
  | nil => exact h
  | cons y front ih =>
    exact .amount (same y List.mem_cons_self) (ih fun z hz => same z (List.mem_cons_of_mem _ hz))

/-- Equal operators one after another spell equal nodes one after another. -/
theorem of_run (same : ∀ y ∈ front, Node.ofRun? 1 y.kind = some node)
    (h : Spells first (front ++ source) nodes bodies) :
    ∃ rest, nodes = List.replicate front.length node ++ rest ∧ Spells first source rest bodies := by
  induction front generalizing nodes with
  | nil => exact ⟨nodes, rfl, h⟩
  | cons y front ih =>
    have one := same y List.mem_cons_self
    rw [List.cons_append] at h
    generalize tail : front ++ source = rest at h
    cases h with
    | comment hx | loop hx | procedure hx =>
      rw [hx] at one
      cases one
    | operator hx =>
      generalize y.kind = kind at hx one
      cases kind <;> simp [Node.ofRun?, Node.ofOperator?] at hx one
    | amount hx h =>
      cases hx.symm.trans one
      subst tail
      obtain ⟨rest, rfl, behind⟩ := ih (fun z hz => same z (List.mem_cons_of_mem _ hz)) h
      exact ⟨rest, rfl, behind⟩

end Spells

/-- The operators of a run are spelled alike, and add up to the node of the run. -/
theorem Node.exists_of_run {kind : Token.Kind} {count : Int} {node : Node}
    (h : ofRun? count kind = some node) :
    ∃ single, ofRun? 1 kind = some single ∧
      ∀ n : Nat, ∃ sum, ofRun? (n + 1) kind = some sum ∧
        Sums (List.replicate (n + 1) single) [sum] := by
  cases kind with
  | increment =>
    exact ⟨.amend 1, rfl, fun n => ⟨_, rfl, .run adds_amend n 1 _ (by rw [Int.mul_one])⟩⟩
  | decrement =>
    exact ⟨.amend (-1), rfl, fun n => ⟨_, rfl, .run adds_amend n (-1) _ (by rw [Int.mul_neg_one])⟩⟩
  | forward => exact ⟨.move 1, rfl, fun n => ⟨_, rfl, .run adds_move n 1 _ (by rw [Int.mul_one])⟩⟩
  | back =>
    exact ⟨.move (-1), rfl, fun n => ⟨_, rfl, .run adds_move n (-1) _ (by rw [Int.mul_neg_one])⟩⟩
  | _ => cases h

/-- All operators of a run have the same node. -/
theorem Program.ofRun?_of_mem_run {x y : Located} {source : List Located} {node : Node}
    (hx : Node.ofRun? 1 x.kind = some node) (member : y ∈ x :: runOf x source) :
    Node.ofRun? 1 y.kind = some node := by
  rcases List.mem_cons.1 member with rfl | member
  · exact hx
  · rw [Located.kind, byte_of_mem_runOf member]
    exact hx

namespace Reads

variable {first : Nat} {source : List Located} {nodes : List Node} {bodies : List (List Node)}

/-- What can be read can be read operator by operator. -/
theorem exists_spells (h : Reads first source nodes bodies) :
    ∃ plain plains, Spells first source plain plains ∧ plains.length = bodies.length := by
  induction h with
  | nil => exact ⟨[], [], .nil, rfl⟩
  | comment hx _ ih =>
    obtain ⟨plain, plains, spells, size⟩ := ih
    exact ⟨plain, plains, .comment hx spells, size⟩
  | @run _ x source _ _ _ hx _ ih =>
    obtain ⟨plain, plains, spells, size⟩ := ih
    obtain ⟨single, one, -⟩ := Node.exists_of_run hx
    have whole := spells.run fun y (hy : y ∈ x :: Program.runOf x source) =>
      Program.ofRun?_of_mem_run one hy
    rw [List.cons_append, Program.runOf_append_afterRun] at whole
    exact ⟨_, plains, whole, size⟩
  | operator hx _ ih =>
    obtain ⟨plain, plains, spells, size⟩ := ih
    exact ⟨_, plains, .operator hx spells, size⟩
  | @zero first x y z _ _ _ hx hy hz _ ih =>
    obtain ⟨plain, plains, spells, size⟩ := ih
    have less : Node.ofRun? 1 y.kind = some (.amend (-1)) := by rw [hy]; rfl
    have inner : Spells first [y] _ [] := .amount less .nil
    exact ⟨_, _, .loop hx hz inner spells, size⟩
  | loop hx hz _ _ _ ihBody ih =>
    obtain ⟨inner, defined, within, sizeBody⟩ := ihBody
    obtain ⟨plain, plains, spells, size⟩ := ih
    rw [← sizeBody] at spells
    exact ⟨_, _, .loop hx hz within spells,
      by rw [List.length_append, List.length_append, sizeBody, size]⟩
  | procedure hx hz _ _ ihBody ih =>
    obtain ⟨inner, defined, within, sizeBody⟩ := ihBody
    obtain ⟨plain, plains, spells, size⟩ := ih
    rw [← sizeBody] at spells
    refine ⟨_, _, .procedure hx hz within spells, ?_⟩
    rw [List.length_cons, List.length_append, List.length_cons, List.length_append, sizeBody, size]

/-- A body reads in one way only. -/
theorem unique {nodes' : List Node} {bodies' : List (List Node)}
    (h : Reads first source nodes bodies) (h' : Reads first source nodes' bodies') :
    nodes = nodes' ∧ bodies = bodies' := by
  have read : Program.parseBody first [] #[] source = _ := Program.parseBody_of_reads h rfl
  have read' : Program.parseBody first [] #[] source = _ := Program.parseBody_of_reads h' rfl
  simpa using Except.ok.inj (read.symm.trans read')

end Reads

/-- Adds up amounts that stand side by side, and takes a loop that counts down for a zero. -/
def Node.Tidy (old new : List Node) : Prop :=
  Sums old new ∨ Unroll new old

/-- Tidying is sound up to the scratch register. -/
theorem Node.Tidy.sound : Node.Sound false Node.Tidy where
  checked old new := Or.rec ((Sums.sound false).checked old new) (Unroll.sound.flip.checked old new)
  forth old new := Or.rec ((Sums.sound false).forth old new) (Unroll.sound.flip.forth old new)
  back old new := Or.rec ((Sums.sound false).back old new) (Unroll.sound.flip.back old new)

/-- What is read operator by operator can be read, and the program comes from it by tidying up. -/
theorem Reads.of_spells {first : Nat} {source : List Located} {plain : List Node}
    {plains : List (List Node)} (h : Spells first source plain plains) :
    ∃ nodes bodies, Reads first source nodes bodies ∧ Node.Rewrites Node.Tidy plain nodes ∧
      List.Forall₂ (Node.Rewrites Node.Tidy) plains bodies := by
  -- A run is taken at once, so the induction is over the length of the source.
  induction size : source.length using Nat.strong_induction_on
      generalizing first source plain plains with
  | _ n ih =>
    subst size
    cases h with
    | nil => exact ⟨[], [], .nil, .nil, .nil⟩
    | comment hx rest =>
      obtain ⟨nodes, bodies, reads, tidied, all⟩ := ih _ (by simp) rest rfl
      exact ⟨nodes, bodies, .comment hx reads, tidied, all⟩
    | @amount _ x source _ _ _ hx rest =>
      obtain ⟨single, one, sums⟩ := Node.exists_of_run hx
      cases hx.symm.trans one
      obtain ⟨sum, node, added⟩ := sums (Program.runOf x source).length
      rw [← Program.runOf_append_afterRun x source] at rest
      obtain ⟨behind, rfl, later⟩ :=
        rest.of_run fun y hy => Program.ofRun?_of_mem_run one (List.mem_cons_of_mem _ hy)
      have shorter : (Program.afterRun x source).length < (x :: source).length :=
        Nat.lt_succ_of_le (Program.length_afterRun_le x source)
      obtain ⟨nodes, bodies, reads, tidied, all⟩ := ih _ shorter later rfl
      exact ⟨sum :: nodes, bodies, .run node reads, .replace (.inl added) tidied, all⟩
    | operator hx rest =>
      obtain ⟨nodes, bodies, reads, tidied, all⟩ := ih _ (by simp) rest rfl
      exact ⟨_ :: nodes, bodies, .operator hx reads, .keep _ tidied, all⟩
    | @loop _ x z body source _ _ _ _ hx hz within rest =>
      have shorter : body.length + source.length < (x :: (body ++ z :: source)).length := by
        simp only [List.length_cons, List.length_append]
        omega
      obtain ⟨nodes, bodies, reads, tidied, all⟩ := ih _ (by omega) rest rfl
      by_cases single : ∃ y, body = [y] ∧ y.kind = .decrement
      · obtain ⟨y, rfl, less⟩ := single
        have one : Node.ofRun? 1 y.kind = some (.amend (-1)) := by rw [less]; rfl
        have alone : Spells first ([y] ++ []) _ _ := within
        obtain ⟨_, rfl, nothing⟩ := alone.of_run (by simpa using one)
        cases nothing
        exact ⟨.zero :: nodes, bodies, .zero hx less hz reads, .replace (.inr .zero) tidied, all⟩
      · obtain ⟨inner, defined, reads', tidied', all'⟩ := ih _ (by omega) within rfl
        rw [all'.length_eq] at reads
        exact ⟨_, _, .loop hx hz (fun y hy less => single ⟨y, hy, less⟩) reads' reads,
          .loop tidied' tidied, List.rel_append all' all⟩
    | @procedure _ x z body source _ _ _ _ hx hz within rest =>
      have shorter : body.length + source.length < (x :: (body ++ z :: source)).length := by
        simp only [List.length_cons, List.length_append]
        omega
      obtain ⟨nodes, bodies, reads, tidied, all⟩ := ih _ (by omega) rest rfl
      obtain ⟨inner, defined, reads', tidied', all'⟩ := ih _ (by omega) within rfl
      rw [all'.length_eq] at reads
      exact ⟨_, _, .procedure hx hz reads' reads, .keep _ tidied,
        .cons tidied' (List.rel_append all' all)⟩

/-! ## Programs -/

/-- Stripping a source removes no call. -/
theorem Source.callCount_strip (source : List UInt8) :
    callCount (strip source) = callCount source := by
  rw [callCount, strip, List.countP_filter]
  apply List.countP_congr
  intro b _
  constructor
  · intro both
    exact (Bool.and_eq_true_iff.1 both).1
  · intro call
    have operator : b ∈ Token.operators := by
      rw [Token.mem_operators_iff, beq_iff_eq.1 call]
      decide
    exact Bool.and_eq_true_iff.2 ⟨call, decide_eq_true operator⟩

namespace Program

/-- Bodies that are related one by one make procedures with the same numbers. -/
theorem numbered_forall₂ {R : List Node → List Node → Prop} {a b : List (List Node)}
    (h : List.Forall₂ R a b) :
    List.Forall₂ (fun x y => x.id = y.id ∧ R x.body y.body) (numbered a.toArray)
      (numbered b.toArray) := by
  have numberedFrom (start : Nat) :
      List.Forall₂ (fun x y : Procedure => x.id = y.id ∧ R x.body y.body)
      ((a.zipIdx start).map fun x => ⟨x.2, x.1⟩) ((b.zipIdx start).map fun x => ⟨x.2, x.1⟩) := by
    induction h generalizing start with
    | nil => exact .nil
    | cons first _ ih => exact .cons ⟨rfl, first⟩ (ih (start + 1))
  exact numberedFrom 0

/-- A source and the source without its comments have programs that come from the same one by
tidying up. -/
theorem exists_plain {source : List UInt8} {p : Program} (read : parse source = .ok p) :
    ∃ plain q : Program, parse (Source.strip source) = .ok q ∧ plain.Rewrites Node.Tidy p ∧
      plain.Rewrites Node.Tidy q := by
  obtain ⟨main, bodies, reads, rfl⟩ := parse_eq_ok_iff.1 read
  obtain ⟨plain, plains, spells, -⟩ := reads.exists_spells
  have spells' := spells.filterMap (Source.moves_image source)
  rw [← Source.ofBytes_strip] at spells'
  obtain ⟨main', bodies', reads', tidied, all⟩ := Reads.of_spells spells
  obtain ⟨rfl, rfl⟩ := reads.unique reads'
  obtain ⟨main', bodies', reads', tidied', all'⟩ := Reads.of_spells spells'
  exact ⟨{ main := plain, procedures := numbered plains.toArray, calls := Source.callCount source },
    _, parse_eq_ok_iff.2 ⟨main', bodies', reads', rfl⟩, ⟨tidied, numbered_forall₂ all, rfl⟩,
    ⟨tidied', numbered_forall₂ all', by rw [Source.callCount_strip]⟩⟩

end Program

/-- What is built is the compiled program that was read. -/
theorem build_eq_ok_iff {source : List UInt8} {code : Bytecode} :
    build source = .ok code ↔ ∃ p, Program.parse source = .ok p ∧ p.compile = .ok code := by
  constructor
  · exact exists_of_build
  · rintro ⟨p, read, compiled⟩
    have mapped : p.compile.mapError BuildError.compile = .ok code := by rw [compiled]; rfl
    rw [build, buildFor, read]
    exact mapped

/-- A source that is read builds if and only if its program compiles. -/
theorem exists_build_iff {source : List UInt8} {p : Program} (read : Program.parse source = .ok p) :
    (∃ code, build source = .ok code) ↔ ∃ code, p.compile = .ok code := by
  simp only [build_eq_ok_iff, read, Except.ok.injEq, exists_eq_left']

/-- A source that is refused by the parser does not build. -/
theorem not_build_of_error {source : List UInt8} {e : ParseError} {code : Bytecode}
    (refused : Program.parse source = .error e) : build source ≠ .ok code := by
  intro built
  obtain ⟨p, read, -⟩ := build_eq_ok_iff.1 built
  cases refused.symm.trans read

/-- **Comments never change meaning.** Without its comments a source is refused for the same
bracket, at the place where this one stands then, or it is a program as before; it can be built just
when the source can; and on every host both bytecodes run alike but for the scratch register. -/
theorem build_strip (source : List UInt8) :
    (∀ e, Program.parse source = .error e → ∃ k : Nat, e.offset = k ∧ source[k]? = some e.bracket ∧
      Program.parse (Source.strip source) =
        .error ⟨e.bracket, (Source.strip (source.take k)).length⟩) ∧
    ((∃ p, Program.parse source = .ok p) ↔ ∃ q, Program.parse (Source.strip source) = .ok q) ∧
    ((∃ code, build source = .ok code) ↔ ∃ code', build (Source.strip source) = .ok code') ∧
    ∀ code code', build source = .ok code → build (Source.strip source) = .ok code' →
      code.Short → code'.Short → ∀ {σ : Type} [Host σ] (host : σ),
        code.RunsAlike false code' host := by
  refine ⟨fun e refused => Program.parse_strip_eq_error refused, ?_⟩
  cases read : Program.parse source with
  | error e =>
    obtain ⟨k, -, -, refused⟩ := Program.parse_strip_eq_error read
    rw [refused]
    refine ⟨by simp, ⟨?_, ?_⟩, ?_⟩
    · rintro ⟨code, built⟩
      exact absurd built (not_build_of_error read)
    · rintro ⟨code', built'⟩
      exact absurd built' (not_build_of_error refused)
    · intro code _ built
      exact absurd built (not_build_of_error read)
  | ok p =>
    have sound := Node.Tidy.sound
    obtain ⟨plain, q, read', tidied, tidied'⟩ := Program.exists_plain read
    rw [exists_build_iff read, exists_build_iff read', ← tidied.exists_compile_iff sound,
      ← tidied'.exists_compile_iff sound, read']
    refine ⟨by simp, Iff.rfl, ?_⟩
    intro code code' built built' short short' σ _ host
    obtain ⟨p, same, compiled⟩ := build_eq_ok_iff.1 built
    cases read.symm.trans same
    obtain ⟨q, same, compiled'⟩ := build_eq_ok_iff.1 built'
    cases read'.symm.trans same
    -- Each of the two programs does what the one without runs and zeros does.
    have forth := (tidied.flip.endsAlike sound.flip).trans (tidied'.endsAlike sound)
    have back := (tidied'.flip.endsAlike sound.flip).trans (tidied.endsAlike sound)
    exact .of_endsAlike forth back compiled compiled' short short' host

/-- Without the comments the increments are one run and the loop is a zero. -/
theorem build_strip_of_apart :
    ∃ code code', build "+ +([ -]).".toUTF8.toList = .ok code ∧
      Source.strip "+ +([ -]).".toUTF8.toList = "++([-]).".toUTF8.toList ∧
      build (Source.strip "+ +([ -]).".toUTF8.toList) = .ok code' ∧ code.Short ∧ code'.Short ∧
      code.RunsAlike false code' ({} : Host.Script) := by
  have stripped : Source.strip "+ +([ -]).".toUTF8.toList = "++([-]).".toUTF8.toList := by
    cbv
  have read : Program.parse "+ +([ -]).".toUTF8.toList =
      .ok { main := [.amend 1, .amend 1, .register 0, .write]
            procedures := [⟨0, [.loop [.amend (-1)]]⟩] } := by
    cbv
  have read' : Program.parse "++([-]).".toUTF8.toList =
      .ok { main := [.amend 2, .register 0, .write], procedures := [⟨0, [.zero]⟩] } := by
    cbv
  have built : ∃ code, build "+ +([ -]).".toUTF8.toList = .ok code ∧ code.Short := by
    rw [build, buildFor, read]
    exact ⟨_, rfl, by decide, by decide⟩
  have built' : ∃ code, build (Source.strip "+ +([ -]).".toUTF8.toList) = .ok code ∧
      code.Short := by
    rw [stripped, build, buildFor, read']
    exact ⟨_, rfl, by decide, by decide⟩
  obtain ⟨code, built, short⟩ := built
  obtain ⟨code', built', short'⟩ := built'
  exact ⟨code, code', built, stripped, built', short, short',
    (build_strip _).2.2.2 code code' built built' short short' _⟩

end TapeLang
