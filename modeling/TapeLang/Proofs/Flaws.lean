/-
# Sources that are no programs

Where reading a source fails it reports one bracket. `Fails` says which one by rules: what stands in
front of it is passed byte by byte or, where a bracket finds its partner, body by body. A bracket is
reported that closes nothing, or for which no partner is found when brackets of its own kind are
counted. Reading fails exactly by these rules, `Program.parse_eq_error_iff`: a source fails in one
way at most, and none whose brackets are nested does.
-/
import TapeLang.Proofs.Nesting

namespace TapeLang

/-- The bracket that is reported for a body. -/
inductive Fails : List Located → Located → Prop
  | plain {x e : Located} {source : List Located} :
      Bracket.isBracket x.byte = false → Fails source e → Fails (x :: source) e
  | closing (k : Bracket) {x : Located} {source : List Located} :
      x.kind = k.closingKind → Fails (x :: source) x
  | unclosed (k : Bracket) {x : Located} {source : List Located} :
      x.kind = k.openingKind → Program.capture k.openingKind k.closingKind 0 [] source = none →
      Fails (x :: source) x
  | inside (k : Bracket) {x e : Located} {source body after : List Located} :
      x.kind = k.openingKind →
      Program.capture k.openingKind k.closingKind 0 [] source = some (body, after) →
      Fails body e → Fails (x :: source) e
  | behind (k : Bracket) {x e : Located} {source body after : List Located} :
      x.kind = k.openingKind →
      Program.capture k.openingKind k.closingKind 0 [] source = some (body, after) →
      Bracket.Nested (Bracket.wordOf body) → Fails after e → Fails (x :: source) e

namespace Bracket

variable {x : Located} {source : List Located}

theorem isBracket_of_openingKind {k : Bracket} (opens : x.kind = k.openingKind) :
    isBracket x.byte = true :=
  isBracket_iff.2 ⟨k, .inl ((ofByte_eq_openingKind k).1 opens)⟩

theorem isBracket_of_closingKind {k : Bracket} (closes : x.kind = k.closingKind) :
    isBracket x.byte = true :=
  isBracket_iff.2 ⟨k, .inr ((ofByte_eq_closingKind k).1 closes)⟩

/-- In a nested source a bracket finds its partner, and what stands between them and behind is
nested. -/
theorem Nested.capture {k : Bracket} (opens : x.kind = k.openingKind)
    (h : Nested (wordOf (x :: source))) :
    ∃ body after, Program.capture k.openingKind k.closingKind 0 [] source = some (body, after) ∧
      Nested (wordOf body) ∧ Nested (wordOf after) := by
  rw [wordOf_cons_bracket (isBracket_of_openingKind opens), (ofByte_eq_openingKind k).1 opens] at h
  obtain ⟨inner, outer, split, hInner, hOuter⟩ := h.split
  obtain ⟨body, z, after, rfl, rfl, closing, rfl⟩ := exists_of_wordOf split
  obtain ⟨nodes, bodies, reads⟩ := Reads.of_nested body 0 hInner
  exact ⟨body, after, (reads.passes k).capture ((ofByte_eq_closingKind k).2 closing), hInner,
    hOuter⟩

end Bracket

namespace Fails

variable {x e e' : Located} {source : List Located}

/-- What stands in front of the bracket that is reported may hold bytes that are no brackets. -/
theorem stretch {front : List Located} (plain : ∀ y ∈ front, Bracket.isBracket y.byte = false)
    (h : Fails source e) : Fails (front ++ source) e := by
  induction front with
  | nil => exact h
  | cons y front ih =>
    exact .plain (plain y List.mem_cons_self) (ih fun z hz => plain z (List.mem_cons_of_mem _ hz))

/-- A source that fails has no nested brackets. -/
theorem not_nested (h : Fails source e) : ¬ Bracket.Nested (Bracket.wordOf source) := by
  induction h with
  | plain isPlain _ ih =>
    rw [Bracket.wordOf_cons_plain isPlain]
    exact ih
  | closing k closes =>
    rw [Bracket.wordOf_cons_bracket (Bracket.isBracket_of_closingKind closes),
      (Bracket.ofByte_eq_closingKind k).1 closes]
    exact Bracket.not_nested_closing k _
  | unclosed k opens missing =>
    intro nested
    obtain ⟨body, after, found, -⟩ := nested.capture opens
    cases missing.symm.trans found
  | inside k opens found _ ih =>
    intro nested
    obtain ⟨body, after, found', inner, -⟩ := nested.capture opens
    cases found.symm.trans found'
    exact ih inner
  | behind k opens found _ _ ih =>
    intro nested
    obtain ⟨body, after, found', -, outer⟩ := nested.capture opens
    cases found.symm.trans found'
    exact ih outer

/-! What is reported for a source, by its first byte. -/

/-- What is reported behind a byte that is no bracket is reported for the source behind it. -/
theorem of_plain (isPlain : Bracket.isBracket x.byte = false) (h : Fails (x :: source) e) :
    Fails source e := by
  have noBracket : Bracket.isBracket x.byte ≠ true := by simp [isPlain]
  cases h with
  | plain _ h => exact h
  | closing k closes => exact absurd (Bracket.isBracket_of_closingKind closes) noBracket
  | unclosed k opens | inside k opens | behind k opens =>
    exact absurd (Bracket.isBracket_of_openingKind opens) noBracket

/-- A closing bracket that the source begins with is reported. -/
theorem of_closing {k : Bracket} (closes : x.kind = k.closingKind) (h : Fails (x :: source) e) :
    e = x := by
  cases h with
  | plain isPlain _ =>
    rw [Bracket.isBracket_of_closingKind closes] at isPlain
    cases isPlain
  | closing | unclosed => rfl
  | inside j opens | behind j opens =>
    exact absurd (opens.symm.trans closes) (Bracket.openingKind_ne_closingKind j k)

/-- For an opening bracket either the bracket is reported, or something in its body or behind it. -/
theorem of_opening {k : Bracket} (opens : x.kind = k.openingKind) (h : Fails (x :: source) e) :
    (Program.capture k.openingKind k.closingKind 0 [] source = none ∧ e = x) ∨
      ∃ body after, Program.capture k.openingKind k.closingKind 0 [] source = some (body, after) ∧
        (Fails body e ∨ Bracket.Nested (Bracket.wordOf body) ∧ Fails after e) := by
  cases h with
  | plain isPlain _ =>
    rw [Bracket.isBracket_of_openingKind opens] at isPlain
    cases isPlain
  | closing j closes =>
    exact absurd (opens.symm.trans closes) (Bracket.openingKind_ne_closingKind k j)
  | unclosed j opens' missing =>
    cases Bracket.openingKind_inj (opens.symm.trans opens')
    exact .inl ⟨missing, rfl⟩
  | @inside j _ _ _ body after opens' found inner =>
    cases Bracket.openingKind_inj (opens.symm.trans opens')
    exact .inr ⟨body, after, found, .inl inner⟩
  | @behind j _ _ _ body after opens' found nested later =>
    cases Bracket.openingKind_inj (opens.symm.trans opens')
    exact .inr ⟨body, after, found, .inr ⟨nested, later⟩⟩

/-- No more than one bracket is reported. -/
theorem unique (h : Fails source e) (h' : Fails source e') : e = e' := by
  induction h generalizing e' with
  | plain isPlain _ ih => exact ih (h'.of_plain isPlain)
  | closing k closes => exact (h'.of_closing closes).symm
  | unclosed k opens missing =>
    rcases h'.of_opening opens with ⟨-, rfl⟩ | ⟨body, after, found, -⟩
    · rfl
    · cases missing.symm.trans found
  | inside k opens found inner ih =>
    rcases h'.of_opening opens with ⟨missing, -⟩ | ⟨body, after, found', h'⟩
    · cases found.symm.trans missing
    · cases found.symm.trans found'
      rcases h' with inner' | ⟨nested, -⟩
      · exact ih inner'
      · exact absurd nested inner.not_nested
  | behind k opens found nested _ ih =>
    rcases h'.of_opening opens with ⟨missing, -⟩ | ⟨body, after, found', h'⟩
    · cases found.symm.trans missing
    · cases found.symm.trans found'
      rcases h' with inner | ⟨-, later⟩
      · exact absurd nested inner.not_nested
      · exact ih later

/-- The bracket that is reported stands in the source. -/
theorem mem (h : Fails source e) : e ∈ source := by
  induction h with
  | plain _ _ ih => exact List.mem_cons_of_mem _ ih
  | closing | unclosed => exact List.mem_cons_self
  | inside k _ found _ ih =>
    obtain ⟨passed, z, -, rfl, rfl⟩ := Program.eq_append_of_capture found
    exact List.mem_cons_of_mem _ (List.mem_append_left _ (by simpa using ih))
  | behind k _ found _ _ ih =>
    obtain ⟨passed, z, -, rfl, rfl⟩ := Program.eq_append_of_capture found
    exact List.mem_cons_of_mem _ (List.mem_append_right _ (List.mem_cons_of_mem _ ih))

end Fails

namespace Program

variable {first : Nat} {nodes : List Node} {procedures : Array (List Node)} {source : List Located}

/-- A body that was read is nested. -/
theorem nested_of_parseBody {result : List Node × Array (List Node)}
    (h : parseBody first nodes procedures source = .ok result) :
    Bracket.Nested (Bracket.wordOf source) := by
  obtain ⟨more, bodies, reads, -⟩ := continues_of_parseBody h
  exact reads.nested

/-- The loop of a single decrement is found by counting as well. -/
theorem capture_of_afterZeroLoop? {after : List Located} (h : afterZeroLoop? source = some after) :
    ∃ y, capture .loopOpen .loopClose 0 [] source = some ([y], after) ∧
      Bracket.Nested (Bracket.wordOf [y]) := by
  match source with
  | [] | [_] => simp [afterZeroLoop?] at h
  | y :: z :: source =>
    simp only [afterZeroLoop?, Option.ite_none_right_eq_some, Option.some.injEq] at h
    obtain ⟨⟨less, closes⟩, rfl⟩ := h
    have one : Node.ofRun? 1 y.kind = some (.amend (-1)) := by rw [less]; rfl
    have plain : ∀ x ∈ [y], Bracket.isBracket x.byte = false := by
      simpa using Bracket.isBracket_of_run one
    refine ⟨y, (Bracket.Passes.plain plain).capture (k := .loop) closes, ?_⟩
    rw [Bracket.wordOf_plain plain]
    exact .nil

/-- Reading stops at the bracket that the rules report. -/
theorem fails_of_parseBody {stop : Stop}
    (h : parseBody first nodes procedures source = .error stop) :
    Fails source ⟨stop.error.bracket, stop.error.offset⟩ := by
  have run {x e : Located} {rest : List Located} {node : Node}
      (hx : Node.ofRun? 1 x.kind = some node) (h : Fails (afterRun x rest) e) :
      Fails (x :: rest) e := by
    have front := h.stretch fun y (hy : y ∈ x :: runOf x rest) => Bracket.isBracket_of_mem_run hx hy
    rwa [List.cons_append, runOf_append_afterRun] at front
  fun_induction parseBody first nodes procedures source generalizing stop with
  | case1 => cases h
  | case2 _ _ _ _ _ hx _ ih | case3 _ _ _ _ _ hx _ ih | case4 _ _ _ _ _ hx _ ih
  | case5 _ _ _ _ _ hx _ ih => exact run (by rw [hx]; rfl) (ih h)
  | case6 _ _ _ _ _ hx ih | case7 _ _ _ _ _ hx ih | case8 _ _ _ _ _ hx ih =>
    exact .plain (Bracket.isBracket_of_operator (by rw [← Located.kind, hx]; rfl)) (ih h)
  | case9 _ _ _ _ _ hx ih => exact .plain (Bracket.isBracket_of_comment hx) (ih h)
  | case10 _ _ _ _ _ hx =>
    cases h
    exact .closing .loop hx
  | case11 _ _ _ _ _ hx =>
    cases h
    exact .closing .procedure hx
  | case12 _ _ _ _ _ hx _ hz _ ih =>
    obtain ⟨y, found, nested⟩ := capture_of_afterZeroLoop? hz
    exact .behind .loop hx found nested (ih h)
  | case13 _ _ _ _ _ hx _ hc =>
    cases h
    exact .unclosed .loop hx hc
  | case14 _ _ _ _ _ hx _ _ _ hc _ _ hb ih =>
    have inner := ih hb
    cases h
    exact .inside .loop hx hc inner
  | case15 _ _ _ _ _ hx hz _ _ hc _ _ _ hb ihBody ih =>
    exact .behind .loop hx hc (nested_of_parseBody hb) (ih h)
  | case16 _ _ _ _ _ hx hc =>
    cases h
    exact .unclosed .procedure hx hc
  | case17 _ _ _ _ _ hx _ _ hc _ _ hb ih =>
    have inner := ih hb
    cases h
    exact .inside .procedure hx hc inner
  | case18 _ _ _ _ _ hx _ _ hc _ _ _ hb ihBody ih =>
    exact .behind .procedure hx hc (nested_of_parseBody hb) (ih h)

/-- **Reading fails by the rules.** A source is refused for a bracket just when the rules report
this one. -/
theorem parse_eq_error_iff {source : List UInt8} {e : ParseError} :
    parse source = .error e ↔ Fails (Located.ofBytes source) ⟨e.bracket, e.offset⟩ := by
  cases read : parseBody 0 [] #[] (Located.ofBytes source) with
  | ok result =>
    simp only [parse, parseSource, Source.ofBytes, read]
    exact ⟨fun h => (by cases h), fun fails => absurd (nested_of_parseBody read) fails.not_nested⟩
  | error stop =>
    have fails := fails_of_parseBody read
    simp only [parse, parseSource, Source.ofBytes, read, Except.error.injEq]
    constructor
    · rintro rfl
      exact fails
    · intro fails'
      cases e
      cases fails.unique fails'
      rfl

end Program

end TapeLang
