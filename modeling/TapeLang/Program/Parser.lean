/-
# Reading a program from its source

The source is read from left to right. An opening bracket is paired with the closing bracket that
balances it when only brackets of its own kind are counted; what stands between the two is then read
as a body of its own. So a body that holds a bracket of the other kind without its partner is
refused as soon as the body is complete, and of two brackets that cross it is the inner one that is
reported.

A procedure gets its number before its body is read, so procedures are numbered by their opening
brackets. A loop that consists of a single decrement is read as setting the cell to zero.
-/
import TapeLang.Program
import TapeLang.Source

namespace TapeLang

/-- A bracket without a partner, and where it stands. -/
structure ParseError where
  bracket : UInt8
  offset : Int
deriving DecidableEq, Repr

namespace ParseError

/-- Whether the bracket opens something that is never closed, rather than closing what was not
open. -/
def isUnclosed (e : ParseError) : Bool :=
  e.bracket == '['.toUInt8 || e.bracket == '('.toUInt8

/-- How the error is reported. -/
def message (e : ParseError) : String :=
  "Unmatched " ++ String.singleton (Char.ofUInt8 e.bracket) ++ " found at offset " ++
    Decimal.text e.offset

end ParseError

namespace Program

/-! ## Captured bodies -/

/-- Splits a source, of which an opening bracket has been taken, at the closing bracket that
balances it: what stands before that one, and what follows it. Only brackets of the given kinds
count; `depth` of them are open inside, and `before` is what was passed already, last byte first. -/
def capture (opening closing : Token.Kind) (depth : Nat) (before : List Located) :
    List Located → Option (List Located × List Located)
  | [] => none
  | x :: rest =>
    if x.kind = opening then capture opening closing (depth + 1) (x :: before) rest
    else if x.kind = closing then
      match depth with
      | 0 => some (before.reverse, rest)
      | depth + 1 => capture opening closing depth (x :: before) rest
    else capture opening closing depth (x :: before) rest

/-- A capture keeps all bytes but the closing bracket. -/
theorem length_of_capture {opening closing : Token.Kind} {depth : Nat}
    {before source body rest : List Located}
    (h : capture opening closing depth before source = some (body, rest)) :
    body.length + rest.length + 1 = before.length + source.length := by
  induction source generalizing depth before with
  | nil => simp [capture] at h
  | cons x source ih =>
    unfold capture at h
    split at h
    · have := ih h
      simp only [List.length_cons] at this ⊢
      omega
    · split at h
      · cases depth with
        | zero =>
          simp only [Option.some.injEq, Prod.mk.injEq] at h
          obtain ⟨rfl, rfl⟩ := h
          simp only [List.length_reverse, List.length_cons]
          omega
        | succ depth =>
          have := ih h
          simp only [List.length_cons] at this ⊢
          omega
      · have := ih h
        simp only [List.length_cons] at this ⊢
        omega

/-- What follows a loop that consists of a single decrement, given what follows its opening
bracket. -/
def afterZeroLoop? : List Located → Option (List Located)
  | x :: y :: rest =>
    if x.kind = .decrement ∧ y.kind = .loopClose then some rest else none
  | _ => none

theorem length_of_afterZeroLoop? {source rest : List Located}
    (h : afterZeroLoop? source = some rest) : rest.length < source.length := by
  match source with
  | [] => simp [afterZeroLoop?] at h
  | [_] => simp [afterZeroLoop?] at h
  | x :: y :: tail =>
    simp only [afterZeroLoop?] at h
    split at h
    · cases h
      simp only [List.length_cons]
      omega
    · cases h

/-! ## Bodies -/

/-- The bytes that carry on the run of an amount operator. -/
def runOf (x : Located) (rest : List Located) : List Located :=
  rest.takeWhile fun y => y.byte == x.byte

/-- What follows the run of an amount operator. -/
def afterRun (x : Located) (rest : List Located) : List Located :=
  rest.dropWhile fun y => y.byte == x.byte

theorem length_afterRun_le (x : Located) (rest : List Located) :
    (afterRun x rest).length ≤ rest.length :=
  (List.dropWhile_suffix _).length_le

/-- The length of a run, of which the first operator is `x`. -/
def runLength (x : Located) (rest : List Located) : Int :=
  (runOf x rest).length + 1

/-- Where reading a body stopped: the error and what had not been taken from the body's source. -/
structure Stop where
  error : ParseError
  rest : List Located

/-- Reads the rest of a body. The nodes read so far stand in `nodes`, last one first; the procedures
defined so far in this body, with all those inside them, stand in `procedures`, and the first of
these has the number `first`. -/
def parseBody (first : Nat) (nodes : List Node) (procedures : Array (List Node)) :
    List Located → Except Stop (List Node × Array (List Node))
  | [] => .ok (nodes.reverse, procedures)
  | x :: rest =>
    match x.kind with
    | .increment =>
      have := length_afterRun_le x rest
      parseBody first (.amend (runLength x rest) :: nodes) procedures (afterRun x rest)
    | .decrement =>
      have := length_afterRun_le x rest
      parseBody first (.amend (-runLength x rest) :: nodes) procedures (afterRun x rest)
    | .forward =>
      have := length_afterRun_le x rest
      parseBody first (.move (runLength x rest) :: nodes) procedures (afterRun x rest)
    | .back =>
      have := length_afterRun_le x rest
      parseBody first (.move (-runLength x rest) :: nodes) procedures (afterRun x rest)
    | .read => parseBody first (.read :: nodes) procedures rest
    | .write => parseBody first (.write :: nodes) procedures rest
    | .call => parseBody first (.call :: nodes) procedures rest
    | .comment => parseBody first nodes procedures rest
    | .loopClose => .error { error := ⟨x.byte, x.offset⟩, rest := rest }
    | .procClose => .error { error := ⟨x.byte, x.offset⟩, rest := rest }
    | .loopOpen =>
      match hz : afterZeroLoop? rest with
      | some after =>
        have := length_of_afterZeroLoop? hz
        parseBody first (.zero :: nodes) procedures after
      | none =>
        match hc : capture .loopOpen .loopClose 0 [] rest with
        | none => .error { error := ⟨x.byte, x.offset⟩, rest := [] }
        | some (body, after) =>
          have := length_of_capture hc
          match parseBody (first + procedures.size) [] #[] body with
          | .error stop => .error { stop with rest := after }
          | .ok (inner, defined) =>
            parseBody first (.loop inner :: nodes) (procedures ++ defined) after
    | .procOpen =>
      match hc : capture .procOpen .procClose 0 [] rest with
      | none => .error { error := ⟨x.byte, x.offset⟩, rest := [] }
      | some (body, after) =>
        have := length_of_capture hc
        match parseBody (first + procedures.size + 1) [] #[] body with
        | .error stop => .error { stop with rest := after }
        | .ok (inner, defined) =>
          parseBody first (.register (first + procedures.size : Nat) :: nodes)
            (procedures.push inner ++ defined) after
termination_by source => source.length
decreasing_by
  all_goals
    simp only [List.length_cons, List.length_nil] at *
    omega

/-! ## Programs -/

/-- Bodies numbered by their positions, as procedures. -/
def numbered (bodies : Array (List Node)) : List Procedure :=
  bodies.toList.zipIdx.map fun x => { id := x.2, body := x.1 }

/-- Reads a program from a queue, and says what is left in the queue: nothing when that succeeds,
else what follows the point where the outermost body was given up. -/
def parseSource (s : Source) : Except ParseError Program × Source :=
  match parseBody 0 [] #[] s.rest with
  | .ok (main, bodies) =>
    (.ok { main := main, procedures := numbered bodies, calls := s.calls }, s.advanceTo [])
  | .error stop => (.error stop.error, s.advanceTo stop.rest)

/-- The program of a source. -/
def parse (source : List UInt8) : Except ParseError Program :=
  (parseSource (.ofBytes source)).1

end Program

end TapeLang
