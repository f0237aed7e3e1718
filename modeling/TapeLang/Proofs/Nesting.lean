/-
# Nested brackets

Leaving all but the brackets out of a source gives a word. A source is a program just when this word
is nested, that is when each bracket has a partner of its own kind and no two pairs cross:
`Program.parse_ok_iff_nested`. One direction is an induction over the rules by which a source reads,
the other one over the length of the source, with the pairs of the word found again in the source.
-/
import TapeLang.Proofs.Grammar

namespace TapeLang

/-! ## Words -/

namespace Bracket

/-- The brackets of a source, and nothing else of it. -/
def word (source : List UInt8) : List UInt8 :=
  source.filter isBracket

/-- Words of brackets in which each bracket has a partner of its own kind and no two pairs cross. -/
inductive Nested : List UInt8 → Prop
  | nil : Nested []
  | pair (k : Bracket) {inner rest : List UInt8} :
      Nested inner → Nested rest → Nested (k.opening :: (inner ++ k.closing :: rest))

/-! ## The word of a source -/

/-- The brackets of bytes of which the places are known. -/
def wordOf (source : List Located) : List UInt8 :=
  word (source.map Located.byte)

theorem wordOf_append (a b : List Located) : wordOf (a ++ b) = wordOf a ++ wordOf b := by
  simp [wordOf, word]

/-- A stretch without brackets adds nothing to the word of a source. -/
theorem wordOf_plain {stretch : List Located} (h : ∀ y ∈ stretch, isBracket y.byte = false) :
    wordOf stretch = [] := by
  simpa [wordOf, word] using h

theorem wordOf_cons_plain {x : Located} {source : List Located} (h : isBracket x.byte = false) :
    wordOf (x :: source) = wordOf source := by
  simp [wordOf, word, h]

theorem wordOf_cons_bracket {x : Located} {source : List Located} (h : isBracket x.byte = true) :
    wordOf (x :: source) = x.byte :: wordOf source := by
  simp [wordOf, word, h]

/-- The word of a pair of brackets is the brackets with the word between them. -/
theorem wordOf_pair {k : Bracket} {x z : Located} {body source : List Located}
    (opens : x.kind = k.openingKind) (closes : z.kind = k.closingKind) :
    wordOf (x :: (body ++ z :: source)) =
      k.opening :: (wordOf body ++ k.closing :: wordOf source) := by
  have opening := (ofByte_eq_openingKind k).1 opens
  have closing := (ofByte_eq_closingKind k).1 closes
  rw [wordOf_cons_bracket (isBracket_iff.2 ⟨k, .inl opening⟩), wordOf_append,
    wordOf_cons_bracket (isBracket_iff.2 ⟨k, .inr closing⟩), opening, closing]

/-- A run adds nothing to the word of a source. -/
theorem wordOf_run {count : Int} {node : Node} {x : Located} {source : List Located}
    (h : Node.ofRun? count x.kind = some node) :
    wordOf (x :: source) = wordOf (Program.afterRun x source) := by
  have run := wordOf_plain fun y (hy : y ∈ x :: Program.runOf x source) => isBracket_of_mem_run h hy
  have split := wordOf_append (x :: Program.runOf x source) (Program.afterRun x source)
  rwa [run, List.cons_append, Program.runOf_append_afterRun, List.nil_append] at split

/-- A bracket of the word stands in the source, between what gives the rest of the word. -/
theorem exists_of_wordOf {source : List Located} {a b : List UInt8} {c : UInt8}
    (h : wordOf source = a ++ c :: b) :
    ∃ body z rest, source = body ++ z :: rest ∧ wordOf body = a ∧ z.byte = c ∧ wordOf rest = b := by
  obtain ⟨front, back, split, ha, hcb⟩ := List.filter_eq_append_iff.1 h
  obtain ⟨skipped, tail, rfl, plain, -, hb⟩ := List.filter_eq_cons_iff.1 hcb
  obtain ⟨before, behind, rfl, rfl, second⟩ := List.map_eq_append_iff.1 split
  obtain ⟨between, last, rfl, rfl, third⟩ := List.map_eq_append_iff.1 second
  obtain ⟨z, rest, rfl, rfl, rfl⟩ := List.map_eq_cons_iff.1 third
  refine ⟨before ++ between, z, rest, by simp, ?_, rfl, hb⟩
  have none : wordOf between = [] := by
    refine wordOf_plain fun y hy => ?_
    simpa using plain y.byte (List.mem_map_of_mem hy)
  rw [wordOf_append, none, List.append_nil]
  exact ha

theorem opening_inj {j k : Bracket} (h : j.opening = k.opening) : j = k := by
  have kinds := (ofByte_eq_openingKind j).2 h.symm
  exact openingKind_inj (kinds.symm.trans ((ofByte_eq_openingKind k).2 rfl))

/-- Nothing nested begins with a closing bracket. -/
theorem not_nested_closing (k : Bracket) (w : List UInt8) : ¬ Nested (k.closing :: w) := by
  intro h
  generalize e : k.closing :: w = v at h
  cases h with
  | nil => cases e
  | pair j =>
    have same : k.closing = j.opening := (List.cons.inj e).1
    cases j <;> cases k <;> exact absurd same (by decide)

/-- What a nested word that begins with an opening bracket is made of. -/
theorem Nested.split {k : Bracket} {w : List UInt8} (h : Nested (k.opening :: w)) :
    ∃ inner rest, w = inner ++ k.closing :: rest ∧ Nested inner ∧ Nested rest := by
  generalize e : k.opening :: w = v at h
  cases h with
  | nil => cases e
  | @pair j inner rest hi hr =>
    obtain ⟨first, rfl⟩ := List.cons.inj e
    cases opening_inj first
    exact ⟨inner, rest, rfl, hi, hr⟩

end Bracket

namespace Reads

variable {first : Nat} {source : List Located} {nodes : List Node} {bodies : List (List Node)}

/-- What can be read has nested brackets. -/
theorem nested (h : Reads first source nodes bodies) : Bracket.Nested (Bracket.wordOf source) := by
  induction h with
  | nil => exact .nil
  | comment hx _ ih =>
    rw [Bracket.wordOf_cons_plain (Bracket.isBracket_of_comment hx)]
    exact ih
  | run hx _ ih =>
    rw [Bracket.wordOf_run hx]
    exact ih
  | operator hx _ ih =>
    rw [Bracket.wordOf_cons_plain (Bracket.isBracket_of_operator hx)]
    exact ih
  | @zero _ x y z source _ _ hx hy hz _ ih =>
    have one : Node.ofRun? 1 y.kind = some (.amend (-1)) := by rw [hy]; rfl
    have inner : Bracket.wordOf [y] = [] :=
      Bracket.wordOf_plain (by simpa using Bracket.isBracket_of_run one)
    have word : Bracket.wordOf (x :: ([y] ++ z :: source)) = _ :=
      Bracket.wordOf_pair (k := .loop) hx hz
    rw [inner] at word
    rw [← List.singleton_append (x := y), word]
    exact .pair .loop .nil ih
  | loop hx hz _ _ _ ihBody ih =>
    rw [Bracket.wordOf_pair (k := .loop) hx hz]
    exact .pair .loop ihBody ih
  | procedure hx hz _ _ ihBody ih =>
    rw [Bracket.wordOf_pair (k := .procedure) hx hz]
    exact .pair .procedure ihBody ih

end Reads

/-- What a kind of token is to the rules. -/
theorem Token.Kind.rules (kind : Kind) (count : Int) :
    kind = .comment ∨ (∃ node, Node.ofRun? count kind = some node) ∨
      (∃ node, Node.ofOperator? kind = some node) ∨
      ∃ k : Bracket, kind = k.openingKind ∨ kind = k.closingKind := by
  cases kind with
  | comment => exact .inl rfl
  | forward | back | increment | decrement => exact .inr (.inl ⟨_, rfl⟩)
  | read | write | call => exact .inr (.inr (.inl ⟨_, rfl⟩))
  | loopOpen => exact .inr (.inr (.inr ⟨.loop, .inl rfl⟩))
  | loopClose => exact .inr (.inr (.inr ⟨.loop, .inr rfl⟩))
  | procOpen => exact .inr (.inr (.inr ⟨.procedure, .inl rfl⟩))
  | procClose => exact .inr (.inr (.inr ⟨.procedure, .inr rfl⟩))

/-- What has nested brackets can be read. -/
theorem Reads.of_nested (source : List Located) (first : Nat)
    (h : Bracket.Nested (Bracket.wordOf source)) :
    ∃ nodes bodies, Reads first source nodes bodies := by
  match source with
  | [] => exact ⟨[], [], .nil⟩
  | x :: rest =>
    rcases x.kind.rules (Program.runLength x rest) with hx | ⟨node, hx⟩ | ⟨node, hx⟩ | ⟨k, hx | hx⟩
    · rw [Bracket.wordOf_cons_plain (Bracket.isBracket_of_comment hx)] at h
      obtain ⟨nodes, bodies, reads⟩ := Reads.of_nested rest first h
      exact ⟨nodes, bodies, .comment hx reads⟩
    · rw [Bracket.wordOf_run hx] at h
      have := Program.length_afterRun_le x rest
      obtain ⟨nodes, bodies, reads⟩ := Reads.of_nested (Program.afterRun x rest) first h
      exact ⟨node :: nodes, bodies, .run hx reads⟩
    · rw [Bracket.wordOf_cons_plain (Bracket.isBracket_of_operator hx)] at h
      obtain ⟨nodes, bodies, reads⟩ := Reads.of_nested rest first h
      exact ⟨node :: nodes, bodies, .operator hx reads⟩
    · have opening := (Bracket.ofByte_eq_openingKind k).1 hx
      rw [Bracket.wordOf_cons_bracket (Bracket.isBracket_iff.2 ⟨k, .inl opening⟩), opening] at h
      -- The partner of the bracket in the word is found in the source, and what stands between the
      -- two and behind them is shorter than the source.
      obtain ⟨inner, outer, split, hInner, hOuter⟩ := h.split
      obtain ⟨body, z, after, parts, rfl, closing, rfl⟩ := Bracket.exists_of_wordOf split
      have shorter : body.length + after.length < rest.length := by
        rw [parts, List.length_append, List.length_cons]
        omega
      have hz := (Bracket.ofByte_eq_closingKind k).2 closing
      rw [parts]
      cases k with
      | loop =>
        by_cases single : ∃ y, body = [y] ∧ y.kind = .decrement
        · obtain ⟨y, rfl, less⟩ := single
          obtain ⟨nodes, bodies, reads⟩ := Reads.of_nested after first hOuter
          exact ⟨_, _, .zero hx less hz reads⟩
        · obtain ⟨inside, defined, within⟩ := Reads.of_nested body first hInner
          obtain ⟨nodes, bodies, reads⟩ := Reads.of_nested after (first + defined.length) hOuter
          exact ⟨_, _, .loop hx hz (fun y hy less => single ⟨y, hy, less⟩) within reads⟩
      | procedure =>
        obtain ⟨inside, defined, within⟩ := Reads.of_nested body (first + 1) hInner
        obtain ⟨nodes, bodies, reads⟩ := Reads.of_nested after (first + 1 + defined.length) hOuter
        exact ⟨_, _, .procedure hx hz within reads⟩
    · have closing := (Bracket.ofByte_eq_closingKind k).1 hx
      rw [Bracket.wordOf_cons_bracket (Bracket.isBracket_iff.2 ⟨k, .inr closing⟩), closing] at h
      exact absurd h (Bracket.not_nested_closing k _)
termination_by source.length
decreasing_by
  all_goals
    simp only [List.length_cons] at *
    omega

/-- **A source is a program just when its brackets are nested**: no other byte of it matters, and no
source in which two pairs of brackets cross is taken. -/
theorem Program.parse_ok_iff_nested (source : List UInt8) :
    (∃ p, parse source = .ok p) ↔ Bracket.Nested (Bracket.word source) := by
  have bytes : Bracket.wordOf (Located.ofBytes source) = Bracket.word source := by
    simp [Bracket.wordOf, Located.ofBytes, Function.comp_def]
  rw [← bytes]
  constructor
  · rintro ⟨p, h⟩
    obtain ⟨main, bodies, reads, -⟩ := parse_eq_ok_iff.1 h
    exact reads.nested
  · intro h
    obtain ⟨main, bodies, reads⟩ := Reads.of_nested _ 0 h
    exact ⟨_, parse_eq_ok_iff.2 ⟨main, bodies, reads, rfl⟩⟩

end TapeLang
