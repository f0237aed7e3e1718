/-
# The bracket that is reported

A bracket offends if it has no partner when the brackets of its kind are counted over the whole
source, or if it opens inside a pair of the other kind and its partner stands behind that pair.
Reading reports the first bracket that offends, and fails just when there is one:
`Program.parse_error_iff_first_offence`.

The reader never looks at a source as a whole. It fails somewhere in bodies that it cut out of
bodies, so an offence is followed outwards: of a body between two brackets the offences are those of
the source around it, `Bracket.offends_inside`, since an opening bracket that crosses the end of the
body has no partner in it; and nothing offends in front of a body, since what was read there is
settled.
-/
import TapeLang.Proofs.Pairing

namespace TapeLang

namespace Bracket

/-! ## Offences -/

/-- A bracket that has no partner. -/
def Lone (source : List UInt8) (i : Nat) : Prop :=
  ∃ k : Bracket, (source[i]? = some k.opening ∧ ∀ j, ¬ k.Pair source i j) ∨
    (source[i]? = some k.closing ∧ ∀ h, ¬ k.Pair source h i)

/-- An opening bracket inside a pair of the other kind that has its partner behind that pair. -/
def Crosses (source : List UInt8) (i : Nat) : Prop :=
  ∃ k k' : Bracket, k ≠ k' ∧ ∃ j h h', k.Pair source i j ∧ k'.Pair source h h' ∧
    h < i ∧ i < h' ∧ h' < j

/-- A bracket that is at fault for a source not being nested. -/
def Offends (source : List UInt8) (i : Nat) : Prop :=
  Lone source i ∨ Crosses source i

/-- The first bracket that offends. -/
structure FirstOffence (source : List UInt8) (i : Nat) : Prop where
  offends : Offends source i
  least : ∀ j < i, ¬ Offends source j

variable {k : Bracket} {a w inner behind source : List UInt8} {b : UInt8} {i : Nat}

theorem Offends.lt_length (h : Offends source i) : i < source.length := by
  rcases h with ⟨k, ⟨found, -⟩ | ⟨found, -⟩⟩ | ⟨k, k', -, j, h, h', pair, -⟩
  · exact (List.getElem?_eq_some_iff.1 found).1
  · exact (List.getElem?_eq_some_iff.1 found).1
  · exact (List.getElem?_eq_some_iff.1 pair.opens).1

/-- There is one first offence at most. -/
theorem FirstOffence.unique {j : Nat} (h : FirstOffence source i) (h' : FirstOffence source j) :
    i = j := by
  rcases Nat.lt_trichotomy i j with before | same | behind
  · exact absurd h.offends (h'.least i before)
  · exact same
  · exact absurd h'.offends (h.least j behind)

/-! ## Behind a balanced stretch -/

/-- What stands behind a stretch that is balanced in both kinds offends as it would alone. -/
theorem offends_append_left (balanced : ∀ k : Bracket, k.Balanced a) :
    Offends (a ++ w) (a.length + i) ↔ Offends w i := by
  have here : (a ++ w)[a.length + i]? = w[i]? := by simp [List.getElem?_append_right]
  rw [Offends, Lone, Crosses, here]
  constructor
  · rintro (⟨k, ⟨opens, alone⟩ | ⟨closes, alone⟩⟩ | ⟨k, k', other, j, h, h', pair, outer, _, _, _⟩)
    · exact .inl ⟨k, .inl ⟨opens, fun j pair => alone _ ((pair_append_left a).2 pair)⟩⟩
    · exact .inl ⟨k, .inr ⟨closes, fun h pair => alone _ ((pair_append_left a).2 pair)⟩⟩
    · obtain ⟨j, rfl⟩ := Nat.exists_eq_add_of_le (show a.length ≤ j by omega)
      obtain ⟨h', rfl⟩ := Nat.exists_eq_add_of_le (show a.length ≤ h' by omega)
      obtain ⟨h, rfl, outer'⟩ := (balanced k').pair_behind outer
      exact .inr ⟨k, k', other, j, h, h', (pair_append_left a).1 pair, outer', by omega, by omega,
        by omega⟩
  · rintro (⟨k, ⟨opens, alone⟩ | ⟨closes, alone⟩⟩ | ⟨k, k', other, j, h, h', pair, outer, _, _, _⟩)
    · refine .inl ⟨k, .inl ⟨opens, fun j pair => ?_⟩⟩
      obtain ⟨j, rfl⟩ := Nat.exists_eq_add_of_le (show a.length ≤ j by have := pair.order; omega)
      exact alone j ((pair_append_left a).1 pair)
    · refine .inl ⟨k, .inr ⟨closes, fun h pair => ?_⟩⟩
      obtain ⟨h, rfl, own⟩ := (balanced k).pair_behind pair
      exact alone h own
    · exact .inr ⟨k, k', other, a.length + j, a.length + h, a.length + h',
        (pair_append_left a).2 pair, (pair_append_left a).2 outer, by omega, by omega, by omega⟩

/-- What offends in a balanced stretch offends in the stretch alone. -/
theorem Offends.of_append (balanced : ∀ k : Bracket, k.Balanced a) (inside : i < a.length)
    (h : Offends (a ++ w) i) : Offends a i := by
  have here : (a ++ w)[i]? = a[i]? := List.getElem?_append_left inside
  rw [Offends, Lone, Crosses, here] at h
  rcases h with ⟨k, ⟨opens, alone⟩ | ⟨closes, alone⟩⟩ |
    ⟨k, k', other, j, h, h', pair, outer, _, _, within⟩
  · exact .inl ⟨k, .inl ⟨opens, fun j pair => alone j (pair.append_right w)⟩⟩
  · exact .inl ⟨k, .inr ⟨closes, fun h pair => alone h (pair.append_right w)⟩⟩
  · have last := (balanced k).lt_of_pair pair inside
    exact .inr ⟨k, k', other, j, h, h', (pair_append_right last w).1 pair,
      (pair_append_right (within.trans last) w).1 outer, by omega, by omega, within⟩

/-! ## Between two brackets -/

theorem pair_inside {j : Bracket} {l r : Nat} (inside : r < inner.length) (behind : List UInt8) :
    j.Pair (k.opening :: (inner ++ k.closing :: behind)) (l + 1) (r + 1) ↔ j.Pair inner l r :=
  (pair_cons _).trans (pair_append_right inside _)

theorem getElem?_inside (inside : i < inner.length) (behind : List UInt8) :
    (k.opening :: (inner ++ k.closing :: behind))[i + 1]? = inner[i]? := by
  rw [List.getElem?_cons_succ, List.getElem?_append_left inside]

section Around

variable (balanced : k.Balanced inner)

include balanced

theorem pair_around (behind : List UInt8) :
    k.Pair (k.opening :: (inner ++ k.closing :: behind)) 0 (inner.length + 1) :=
  pair_iff_append.2 ⟨[], inner, behind, rfl, rfl, by simp [Nat.add_comm], balanced⟩

/-- A bracket that has a partner and stands first does not offend. -/
theorem not_offends_first (behind : List UInt8) :
    ¬ Offends (k.opening :: (inner ++ k.closing :: behind)) 0 := by
  have pair := pair_around balanced behind
  rintro (⟨j, ⟨opens, alone⟩ | ⟨closes, -⟩⟩ | ⟨_, _, -, _, h, _, -, -, before, -⟩)
  · obtain rfl : k = j := opening_inj (Option.some.inj opens)
    exact alone _ pair
  · exact opening_ne_closing k j (Option.some.inj closes)
  · omega

/-- A pair that ends between two brackets begins between them. -/
theorem exists_of_pair_inside {j : Bracket} {behind : List UInt8} {h r : Nat}
    (pair : j.Pair (k.opening :: (inner ++ k.closing :: behind)) h (r + 1))
    (inside : r < inner.length) : ∃ l, h = l + 1 ∧ j.Pair inner l r := by
  cases h with
  | zero =>
    have whole := pair_around balanced behind
    obtain rfl : j = k := opening_inj (Option.some.inj (pair.opens.symm.trans whole.opens))
    have := pair.unique whole
    omega
  | succ l => exact ⟨l, rfl, (pair_inside inside behind).1 pair⟩

/-- An opening bracket that has no partner between the two brackets offends: it has none at all, or
the partner stands behind the closing one, which therefore is of the other kind. -/
theorem offends_of_opening {j : Bracket} (opens : inner[i]? = some j.opening)
    (alone : ∀ r, ¬ j.Pair inner i r) (behind : List UInt8) :
    Offends (k.opening :: (inner ++ k.closing :: behind)) (i + 1) := by
  have inside : i < inner.length := (List.getElem?_eq_some_iff.1 opens).1
  have whole := pair_around balanced behind
  by_cases partner : ∃ r, j.Pair (k.opening :: (inner ++ k.closing :: behind)) (i + 1) r
  · obtain ⟨r, pair⟩ := partner
    have outside : inner.length < r := by
      by_contra last
      obtain ⟨r, rfl⟩ := Nat.exists_eq_add_of_lt (show 0 < r by have := pair.order; omega)
      rw [Nat.zero_add] at pair
      exact alone r ((pair_inside (by omega) behind).1 pair)
    have other : j ≠ k := by
      rintro rfl
      obtain ⟨r', own⟩ := balanced.exists_pair opens
      exact alone r' own
    have apart : r ≠ inner.length + 1 := by
      rintro rfl
      exact other (closing_inj (Option.some.inj (pair.closes.symm.trans whole.closes)))
    exact .inr ⟨j, k, other, r, 0, inner.length + 1, pair, whole, by omega, by omega, by omega⟩
  · exact .inl
      ⟨j, .inl ⟨(getElem?_inside inside behind).trans opens, fun r pair => partner ⟨r, pair⟩⟩⟩

/-- What offends between two brackets offends in the source around them. -/
theorem Offends.around (h : Offends inner i) (behind : List UInt8) :
    Offends (k.opening :: (inner ++ k.closing :: behind)) (i + 1) := by
  have inside := h.lt_length
  rcases h with ⟨j, ⟨opens, alone⟩ | ⟨closes, alone⟩⟩ |
    ⟨j, j', other, r, h, h', pair, outer, _, _, _⟩
  · exact offends_of_opening balanced opens alone behind
  · refine .inl ⟨j, .inr ⟨(getElem?_inside inside behind).trans closes, fun h pair => ?_⟩⟩
    obtain ⟨l, -, own⟩ := exists_of_pair_inside balanced pair inside
    exact alone l own
  · have last := pair.lt_length
    exact .inr ⟨j, j', other, r + 1, h + 1, h' + 1, (pair_inside last behind).2 pair,
      (pair_inside (by omega) behind).2 outer, by omega, by omega, by omega⟩

/-- What offends in a source, and stands between two brackets, offends between them. -/
theorem Offends.of_around {behind : List UInt8} (inside : i < inner.length)
    (h : Offends (k.opening :: (inner ++ k.closing :: behind)) (i + 1)) : Offends inner i := by
  have here := getElem?_inside (k := k) inside behind
  rcases h with ⟨j, ⟨opens, alone⟩ | ⟨closes, alone⟩⟩ |
    ⟨j, j', other, r, h, h', pair, outer, _, _, _⟩
  · exact .inl
      ⟨j, .inl ⟨here ▸ opens, fun r pair => alone _ ((pair_inside pair.lt_length behind).2 pair)⟩⟩
  · exact .inl ⟨j, .inr ⟨here ▸ closes, fun h pair => alone _ ((pair_inside inside behind).2 pair)⟩⟩
  · obtain ⟨r, rfl⟩ := Nat.exists_eq_add_of_lt (show 0 < r by omega)
    obtain ⟨h', rfl⟩ := Nat.exists_eq_add_of_lt (show 0 < h' by omega)
    rw [Nat.zero_add] at pair outer
    by_cases ends : r < inner.length
    · obtain ⟨l, rfl, own⟩ := exists_of_pair_inside balanced outer (show h' < inner.length by omega)
      exact .inr ⟨j, j', other, r, l, h', (pair_inside ends behind).1 pair, own, by omega, by omega,
        by omega⟩
    · -- The partner stands outside, so there is none inside.
      refine .inl ⟨j, .inl ⟨here ▸ pair.opens, fun r' pair' => ends ?_⟩⟩
      have same := pair.unique ((pair_inside pair'.lt_length behind).2 pair')
      have := pair'.lt_length
      omega

/-- Between two brackets a bracket offends just when it does so in what stands between the two. -/
theorem offends_inside (behind : List UInt8) (inside : i < inner.length) :
    Offends (k.opening :: (inner ++ k.closing :: behind)) (i + 1) ↔ Offends inner i :=
  ⟨fun h => h.of_around balanced inside, fun h => h.around balanced behind⟩

/-- The first offence between two brackets is the first one of all. -/
theorem FirstOffence.inside (h : FirstOffence inner i) (behind : List UInt8) :
    FirstOffence (k.opening :: (inner ++ k.closing :: behind)) (i + 1) := by
  have last := h.offends.lt_length
  refine ⟨(offends_inside balanced behind last).2 h.offends, fun j before => ?_⟩
  cases j with
  | zero => exact not_offends_first balanced behind
  | succ j =>
    rw [offends_inside balanced behind (by omega)]
    exact h.least j (by omega)

end Around

/-! ## Settled stretches -/

/-- A stretch that is balanced in both kinds, and in which nothing offends. -/
structure Settled (stretch : List UInt8) : Prop where
  balanced : ∀ k : Bracket, k.Balanced stretch
  fine : ∀ i, ¬ Offends stretch i

/-- Bytes that are no brackets are settled. -/
theorem Settled.plain (h : ∀ b ∈ w, isBracket b = false) : Settled w := by
  refine ⟨fun k => ?_, fun i offends => ?_⟩
  · induction w with
    | nil => rfl
    | cons b w ih =>
      exact (Balanced.plain (h b List.mem_cons_self)).append
        (ih fun c hc => h c (List.mem_cons_of_mem _ hc))
  · have none {b : UInt8} (found : w[i]? = some b) (bracket : isBracket b = true) : False := by
      rw [h b (List.mem_of_getElem? found)] at bracket
      cases bracket
    rcases offends with ⟨k, ⟨found, -⟩ | ⟨found, -⟩⟩ | ⟨k, k', -, j, l, r, pair, -⟩
    · exact none found (isBracket_iff.2 ⟨k, .inl rfl⟩)
    · exact none found (isBracket_iff.2 ⟨k, .inr rfl⟩)
    · exact none pair.opens (isBracket_iff.2 ⟨k, .inl rfl⟩)

/-- In front of other things a settled stretch is still so. -/
theorem Settled.not_offends (h : Settled a) (inside : i < a.length) : ¬ Offends (a ++ w) i :=
  fun offends => h.fine i (offends.of_append h.balanced inside)

/-- Settled stretches side by side are settled. -/
theorem Settled.append (h : Settled a) (h' : Settled w) : Settled (a ++ w) := by
  refine ⟨fun k => (h.balanced k).append (h'.balanced k), fun i => ?_⟩
  by_cases inside : i < a.length
  · exact h.not_offends inside
  · obtain ⟨i, rfl⟩ := Nat.exists_eq_add_of_le (show a.length ≤ i by omega)
    rw [offends_append_left h.balanced]
    exact h'.fine i

/-- A pair of brackets around a settled stretch is settled. -/
theorem Settled.pair (k : Bracket) (h : Settled inner) :
    Settled (k.opening :: (inner ++ [k.closing])) := by
  have balanced := h.balanced k
  refine ⟨fun j => (h.balanced j).pair k, fun i => ?_⟩
  match i with
  | 0 => exact not_offends_first balanced []
  | i + 1 =>
    by_cases inside : i < inner.length
    · rw [offends_inside balanced [] inside]
      exact h.fine i
    · -- What is left is the closing bracket.
      intro offends
      have last := offends.lt_length
      simp only [List.length_cons, List.length_append, List.length_nil] at last
      obtain rfl : i = inner.length := by omega
      have whole := pair_around balanced []
      rcases offends with ⟨j, ⟨opens, -⟩ | ⟨closes, alone⟩⟩ | ⟨j, j', -, r, l, l', pair, -⟩
      · exact opening_ne_closing j k (Option.some.inj (opens.symm.trans whole.closes))
      · obtain rfl : k = j := closing_inj (Option.some.inj (whole.closes.symm.trans closes))
        exact alone 0 whole
      · exact opening_ne_closing j k (Option.some.inj (pair.opens.symm.trans whole.closes))

/-- The first offence behind a settled stretch is the first one of all. -/
theorem FirstOffence.append (h : FirstOffence w i) (settled : Settled a) :
    FirstOffence (a ++ w) (a.length + i) := by
  refine ⟨(offends_append_left settled.balanced).2 h.offends, fun j before => ?_⟩
  by_cases inside : j < a.length
  · exact settled.not_offends inside
  · obtain ⟨j, rfl⟩ := Nat.exists_eq_add_of_le (show a.length ≤ j by omega)
    rw [offends_append_left settled.balanced]
    exact h.least j (by omega)

end Bracket

/-- The bytes of a pair of brackets and of what stands in it and behind it. -/
theorem Bracket.map_byte_pair {k : Bracket} {x z : Located} (opens : x.kind = k.openingKind)
    (closes : z.kind = k.closingKind) (body after : List Located) :
    (x :: (body ++ z :: after)).map Located.byte =
      k.opening :: (body.map Located.byte ++ k.closing :: after.map Located.byte) := by
  rw [List.map_cons, List.map_append, List.map_cons, (ofByte_eq_openingKind k).1 opens,
    (ofByte_eq_closingKind k).1 closes]

/-- Nothing offends in what can be read. -/
theorem Reads.settled {first : Nat} {source : List Located} {nodes : List Node}
    {bodies : List (List Node)} (h : Reads first source nodes bodies) :
    Bracket.Settled (source.map Located.byte) := by
  have pair (k : Bracket) {x z : Located} {body source : List Located}
      (opens : x.kind = k.openingKind) (closes : z.kind = k.closingKind)
      (inner : Bracket.Settled (body.map Located.byte))
      (later : Bracket.Settled (source.map Located.byte)) :
      Bracket.Settled ((x :: (body ++ z :: source)).map Located.byte) := by
    rw [Bracket.map_byte_pair opens closes]
    simpa using (inner.pair k).append later
  induction h with
  | nil => exact .plain (by simp)
  | @comment _ x _ _ _ hx _ ih =>
    have plain : Bracket.Settled [x.byte] := .plain (by simpa using Bracket.isBracket_of_comment hx)
    exact plain.append ih
  | @run _ x source _ _ _ hx _ ih =>
    have plain : Bracket.Settled ((x :: Program.runOf x source).map Located.byte) := by
      refine .plain fun b hb => ?_
      obtain ⟨y, hy, rfl⟩ := List.mem_map.1 hb
      exact Bracket.isBracket_of_mem_run hx hy
    have whole := plain.append ih
    rwa [← List.map_append, List.cons_append, Program.runOf_append_afterRun] at whole
  | @operator _ x _ _ _ _ hx _ ih =>
    have plain : Bracket.Settled [x.byte] :=
      .plain (by simpa using Bracket.isBracket_of_operator hx)
    exact plain.append ih
  | @zero _ x y z _ _ _ hx hy hz _ ih =>
    have one : Node.ofRun? 1 y.kind = some (.amend (-1)) := by rw [hy]; rfl
    have plain : Bracket.Settled ([y].map Located.byte) :=
      .plain (by simpa using Bracket.isBracket_of_run one)
    exact pair .loop hx hz plain ih
  | loop hx hz _ _ _ ihBody ih => exact pair .loop hx hz ihBody ih
  | procedure hx hz _ _ ihBody ih => exact pair .procedure hx hz ihBody ih

/-- What the rules report is the first bracket that offends. -/
theorem Fails.first_offence {source : List Located} {e : Located} (h : Fails source e) :
    ∃ front behind, source = front ++ e :: behind ∧
      Bracket.FirstOffence (source.map Located.byte) front.length := by
  induction h with
  | @plain x e source isPlain _ ih =>
    obtain ⟨front, behind, rfl, first⟩ := ih
    have settled : Bracket.Settled [x.byte] := .plain (by simpa using isPlain)
    refine ⟨x :: front, behind, rfl, ?_⟩
    rw [List.length_cons, Nat.add_comm]
    exact first.append settled
  | @closing k x source closes =>
    refine ⟨[], source, rfl, .inl ⟨k, .inr ⟨?_, fun h pair => ?_⟩⟩, nofun⟩
    · exact congrArg some ((Bracket.ofByte_eq_closingKind k).1 closes)
    · exact absurd pair.order (Nat.not_lt_zero h)
  | @unclosed k x source opens missing =>
    refine ⟨[], source, rfl, .inl ⟨k, .inl ⟨?_, fun j pair => ?_⟩⟩, nofun⟩
    · exact congrArg some ((Bracket.ofByte_eq_openingKind k).1 opens)
    · -- A partner would have been found by counting.
      obtain ⟨front, inner, back, split, place, -, balanced⟩ := Bracket.pair_iff_append.1 pair
      obtain rfl := List.eq_nil_of_length_eq_zero place
      obtain ⟨-, rest⟩ := List.cons.inj split
      obtain ⟨body, tail, rfl, rfl, behind⟩ := List.map_eq_append_iff.1 rest
      obtain ⟨z, after, rfl, closing, rfl⟩ := List.map_eq_cons_iff.1 behind
      have closes : z.kind = k.closingKind := (Bracket.ofByte_eq_closingKind k).2 closing
      cases missing.symm.trans (Program.capture_eq_some_iff.2 ⟨z, closes, rfl, balanced⟩)
  | @inside k x e source body after opens found _ ih =>
    obtain ⟨z, closes, rfl, balanced⟩ := Program.capture_eq_some_iff.1 found
    obtain ⟨front, behind, rfl, first⟩ := ih
    refine ⟨x :: front, behind ++ z :: after, by simp, ?_⟩
    rw [Bracket.map_byte_pair opens closes]
    exact first.inside balanced _
  | @behind k x e source body after opens found nested _ ih =>
    obtain ⟨z, closes, rfl, -⟩ := Program.capture_eq_some_iff.1 found
    obtain ⟨front, behind, rfl, first⟩ := ih
    obtain ⟨nodes, bodies, reads⟩ := Reads.of_nested body 0 nested
    refine ⟨x :: (body ++ z :: front), behind, by simp, ?_⟩
    have whole := first.append (reads.settled.pair k)
    rw [Bracket.map_byte_pair opens closes]
    simpa [Nat.add_comm, Nat.add_left_comm] using whole

theorem ParseError.isUnclosed_iff {e : ParseError} :
    e.isUnclosed = true ↔ ∃ k : Bracket, e.bracket = k.opening := by
  rw [isUnclosed, Bool.or_eq_true, beq_iff_eq, beq_iff_eq]
  constructor
  · rintro (loop | procedure)
    · exact ⟨.loop, loop⟩
    · exact ⟨.procedure, procedure⟩
  · rintro ⟨k, opens⟩
    cases k
    · exact .inl opens
    · exact .inr opens

/-- **Reading reports the first bracket that offends.** A source is refused just when one of its
brackets has no partner or crosses a pair of the other kind; the first such bracket is reported,
where it stands, and it is called unclosed just when it is an opening one. -/
theorem Program.parse_error_iff_first_offence (source : List UInt8) (e : ParseError) :
    parse source = .error e ↔
      ∃ i : Nat, e.offset = i ∧ source[i]? = some e.bracket ∧ Bracket.FirstOffence source i ∧
        (e.isUnclosed = true ↔ ∃ k : Bracket, source[i]? = some k.opening) := by
  have reported {e : ParseError} (refused : parse source = .error e) :
      ∃ i : Nat, e.offset = i ∧ source[i]? = some e.bracket ∧ Bracket.FirstOffence source i := by
    obtain ⟨front, behind, split, first⟩ := (parse_eq_error_iff.1 refused).first_offence
    have found : (Located.ofBytes source)[front.length]? = some ⟨e.bracket, e.offset⟩ := by
      simp [split]
    obtain ⟨offset, here⟩ := Located.getElem?_ofBytes found
    rw [Located.map_byte_ofBytes] at first
    exact ⟨front.length, offset, here, first⟩
  constructor
  · intro refused
    obtain ⟨i, offset, here, first⟩ := reported refused
    refine ⟨i, offset, here, first, ?_⟩
    rw [ParseError.isUnclosed_iff, here]
    simp only [Option.some.injEq]
  · rintro ⟨i, offset, here, first, -⟩
    cases read : parse source with
    | ok p =>
      obtain ⟨main, bodies, reads, -⟩ := parse_eq_ok_iff.1 read
      have settled := reads.settled
      rw [Located.map_byte_ofBytes] at settled
      exact absurd first.offends (settled.fine i)
    | error e' =>
      obtain ⟨i', offset', here', first'⟩ := reported read
      obtain rfl := first.unique first'
      have same : e' = e := by
        cases e
        cases e'
        cases here.symm.trans here'
        cases offset.trans offset'.symm
        rfl
      rw [same]

/-- Of two pairs that cross, the bracket that opens last is reported, and not the one that is closed
too early. -/
example : Program.parse "([)]".toUTF8.toList = .error ⟨'['.toUInt8, 1⟩ := by
  cbv

end TapeLang
