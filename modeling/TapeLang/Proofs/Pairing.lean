/-
# Partners of brackets

Brackets of one kind are paired by counting: an opening bracket is one more that is open, a closing
one takes the last of them away, and brackets of the other kind are not looked at. The partner of an
opening bracket is the closing one between which and itself the count comes out even and never falls
below where it began, `Bracket.Pair`. It is found by `Program.capture`, wherever the bracket stands:
`Program.capture_eq_some_iff`.

What comes before a source in which the count is even, or behind one, does not change the pairs in
it.
-/
import TapeLang.Proofs.Flaws

namespace TapeLang

namespace Bracket

/-! ## Counting -/

/-- How many brackets of a kind are open after a stretch of a source when `open` of them were open
before it. There is no answer if more are closed than are open. -/
def depth (k : Bracket) : Nat → List UInt8 → Option Nat
  | d, [] => some d
  | d, b :: stretch =>
    if b = k.opening then depth k (d + 1) stretch
    else if b = k.closing then
      match d with
      | 0 => none
      | d + 1 => depth k d stretch
    else depth k d stretch

/-- A stretch in which every bracket of a kind is paired. -/
def Balanced (k : Bracket) (stretch : List UInt8) : Prop :=
  depth k 0 stretch = some 0

/-- The bracket at one place of a source has its partner at another place. -/
structure Pair (k : Bracket) (source : List UInt8) (i j : Nat) : Prop where
  order : i < j
  opens : source[i]? = some k.opening
  closes : source[j]? = some k.closing
  balanced : k.Balanced ((source.take j).drop (i + 1))

variable {k : Bracket} {b : UInt8} {d e : Nat} {a w inner source behind : List UInt8}

theorem opening_ne_closing (j k : Bracket) : j.opening ≠ k.closing := by
  cases j <;> cases k <;> decide

theorem closing_inj {j k : Bracket} (h : j.closing = k.closing) : j = k := by
  have kinds := (ofByte_eq_closingKind j).2 h.symm
  exact closingKind_inj (kinds.symm.trans ((ofByte_eq_closingKind k).2 rfl))

theorem depth_opening : depth k d (k.opening :: w) = depth k (d + 1) w :=
  if_pos rfl

theorem depth_closing : depth k (d + 1) (k.closing :: w) = depth k d w := by
  rw [depth, if_neg (opening_ne_closing k k).symm, if_pos rfl]

theorem depth_closing_zero : depth k 0 (k.closing :: w) = none := by
  rw [depth, if_neg (opening_ne_closing k k).symm, if_pos rfl]

theorem depth_other (opens : b ≠ k.opening) (closes : b ≠ k.closing) :
    depth k d (b :: w) = depth k d w := by
  rw [depth.eq_def]
  exact (if_neg opens).trans (if_neg closes)

theorem depth_append (a w : List UInt8) :
    depth k d (a ++ w) = (depth k d a).bind fun d => depth k d w := by
  fun_induction depth k d a with
  | case1 => rfl
  | case2 d a ih => rw [List.cons_append, depth_opening, ih]
  | case3 a opens =>
    rw [List.cons_append, depth_closing_zero]
    rfl
  | case4 a d opens ih => rw [List.cons_append, depth_closing, ih]
  | case5 d b a opens closes ih => rw [List.cons_append, depth_other opens closes, ih]

/-- Brackets that are open all the while make no difference. -/
theorem depth_add (h : depth k d w = some e) (more : Nat) :
    depth k (d + more) w = some (e + more) := by
  fun_induction depth k d w with
  | case1 => simpa [depth] using h
  | case2 d w ih => rw [depth_opening, Nat.add_right_comm, ih h]
  | case3 => cases h
  | case4 w d opens ih =>
    have order : d.succ + more = d + more + 1 := Nat.succ_add d more
    rw [order, depth_closing, ih h]
  | case5 d b w opens closes ih => rw [depth_other opens closes, ih h]

/-- A balanced stretch leaves any depth as it is. -/
theorem Balanced.depth_eq (h : k.Balanced w) (d : Nat) : depth k d w = some d := by
  have more := depth_add h d
  rwa [Nat.zero_add] at more

theorem Balanced.depth_append (h : k.Balanced a) (w : List UInt8) :
    depth k d (a ++ w) = depth k d w := by
  rw [Bracket.depth_append, h.depth_eq, Option.bind_some]

/-- Balanced stretches side by side are balanced. -/
theorem Balanced.append (h : k.Balanced a) (h' : k.Balanced w) : k.Balanced (a ++ w) :=
  (h.depth_append w).trans h'

theorem Balanced.plain (h : isBracket b = false) : k.Balanced [b] := by
  have noBracket : isBracket b ≠ true := by simp [h]
  have opens : b ≠ k.opening := fun same => noBracket (isBracket_iff.2 ⟨k, .inl same⟩)
  have closes : b ≠ k.closing := fun same => noBracket (isBracket_iff.2 ⟨k, .inr same⟩)
  exact depth_other opens closes

/-- A pair of either kind around a balanced stretch is balanced. -/
theorem Balanced.pair (j : Bracket) (h : k.Balanced inner) :
    k.Balanced (j.opening :: (inner ++ [j.closing])) := by
  by_cases same : j = k
  · subst same
    rw [Balanced, depth_opening, h.depth_append, depth_closing]
    rfl
  · have opens : j.opening ≠ k.opening := fun h => same (opening_inj h)
    have closes : j.closing ≠ k.closing := fun h => same (closing_inj h)
    rw [Balanced, depth_other opens (opening_ne_closing j k), h.depth_append,
      depth_other (opening_ne_closing k j).symm closes]
    rfl

/-- Behind a balanced stretch a closing bracket has no partner in it. -/
theorem not_balanced_closing (h : k.Balanced inner) :
    ¬ k.Balanced (inner ++ k.closing :: behind) := by
  rw [Balanced, h.depth_append, depth_closing_zero]
  exact nofun

/-- Where the count falls below where it was, it does so first at a closing bracket in front of
which the stretch is balanced. -/
theorem exists_closing (h : depth k (d + 1) w = some e) (falls : e ≤ d) :
    ∃ inner behind, w = inner ++ k.closing :: behind ∧ k.Balanced inner := by
  -- On the way `opened` further brackets are open.
  have further (opened : Nat) (h : depth k (d + 1 + opened) w = some e) :
      ∃ inner behind, w = inner ++ k.closing :: behind ∧ depth k opened inner = some 0 := by
    clear * - falls h
    induction w generalizing opened with
    | nil =>
      have same := Option.some.inj h
      omega
    | cons b w ih =>
      by_cases opens : b = k.opening
      · subst opens
        rw [depth_opening] at h
        obtain ⟨inner, behind, rfl, back⟩ := ih (opened + 1) h
        exact ⟨k.opening :: inner, behind, rfl, by rw [depth_opening, back]⟩
      · by_cases closes : b = k.closing
        · subst closes
          cases opened with
          | zero => exact ⟨[], w, rfl, rfl⟩
          | succ opened =>
            rw [← Nat.add_assoc, depth_closing] at h
            obtain ⟨inner, behind, rfl, back⟩ := ih opened h
            exact ⟨k.closing :: inner, behind, rfl, by rw [depth_closing, back]⟩
        · rw [depth_other opens closes] at h
          obtain ⟨inner, behind, rfl, back⟩ := ih opened h
          exact ⟨b :: inner, behind, rfl, by rw [depth_other opens closes, back]⟩
  exact further 0 h

/-! ## Pairs -/

variable {i j : Nat}

/-- A pair cuts its source in three: what stands before it, in it and behind it. -/
theorem pair_iff_append :
    Pair k source i j ↔ ∃ front inner back,
      source = front ++ k.opening :: (inner ++ k.closing :: back) ∧
      front.length = i ∧ i + 1 + inner.length = j ∧ k.Balanced inner := by
  constructor
  · rintro ⟨order, opens, closes, balanced⟩
    obtain ⟨inside, opening⟩ := List.getElem?_eq_some_iff.1 opens
    obtain ⟨inside', closing⟩ := List.getElem?_eq_some_iff.1 closes
    refine ⟨source.take i, (source.take j).drop (i + 1), source.drop (j + 1), ?_, ?_, ?_, balanced⟩
    · have front : (source.take j).take i = source.take i := by
        rw [List.take_take, Nat.min_eq_left order.le]
      have short : i < (source.take j).length := by
        rw [List.length_take]
        omega
      have first : (source.take j)[i] = k.opening := by rw [List.getElem_take, opening]
      calc source = source.take j ++ k.closing :: source.drop (j + 1) := by
            rw [← closing, List.getElem_cons_drop, List.take_append_drop]
        _ = (source.take i ++ k.opening :: (source.take j).drop (i + 1)) ++
              k.closing :: source.drop (j + 1) := by
            rw [← front, ← first, List.getElem_cons_drop, List.take_append_drop]
        _ = _ := by rw [List.append_assoc, List.cons_append]
    · rw [List.length_take]
      omega
    · rw [List.length_drop, List.length_take]
      omega
  · rintro ⟨front, inner, back, rfl, rfl, rfl, balanced⟩
    refine ⟨by omega, by simp, ?_, ?_⟩
    · rw [← List.cons_append, ← List.append_assoc, List.getElem?_append_right (by simp; omega)]
      simp [Nat.add_right_comm]
    · have between : ((front ++ k.opening :: (inner ++ k.closing :: back)).take
          (front.length + 1 + inner.length)).drop (front.length + 1) = inner := by
        rw [Nat.add_assoc, List.take_length_add_append, List.drop_length_add_append, Nat.add_comm 1,
          List.take_succ_cons, List.drop_succ_cons, List.drop_zero, List.take_left]
      rw [between]
      exact balanced

/-- A bracket has one partner only. -/
theorem Pair.unique {j' : Nat} (h : Pair k source i j) (h' : Pair k source i j') : j = j' := by
  obtain ⟨front, inner, back, rfl, rfl, rfl, balanced⟩ := pair_iff_append.1 h
  obtain ⟨front', inner', back', same, place, rfl, balanced'⟩ := pair_iff_append.1 h'
  obtain ⟨-, rest⟩ := List.append_inj same place.symm
  obtain ⟨-, rest⟩ := List.cons.inj rest
  -- Of two stretches that end at a closing bracket, the longer one would not be balanced.
  rcases List.append_eq_append_iff.1 rest with ⟨more, rfl, later⟩ | ⟨more, rfl, later⟩
  · cases more with
    | nil => rw [List.append_nil]
    | cons c more =>
      obtain ⟨rfl, -⟩ := List.cons.inj later
      exact absurd balanced' (not_balanced_closing balanced)
  · cases more with
    | nil => rw [List.append_nil]
    | cons c more =>
      obtain ⟨rfl, -⟩ := List.cons.inj later
      exact absurd balanced (not_balanced_closing balanced')

theorem Pair.lt_length (h : Pair k source i j) : j < source.length :=
  (List.getElem?_eq_some_iff.1 h.closes).1

/-- In a balanced source every opening bracket has a partner. -/
theorem Balanced.exists_pair (h : k.Balanced source) (opens : source[i]? = some k.opening) :
    ∃ j, Pair k source i j := by
  obtain ⟨inside, opening⟩ := List.getElem?_eq_some_iff.1 opens
  have split : source = source.take i ++ k.opening :: source.drop (i + 1) := by
    rw [← opening, List.getElem_cons_drop, List.take_append_drop]
  rw [Balanced, split, Bracket.depth_append] at h
  obtain ⟨d, -, back⟩ := Option.bind_eq_some_iff.1 h
  rw [depth_opening] at back
  obtain ⟨inner, behind, rest, balanced⟩ := exists_closing back (Nat.zero_le d)
  rw [rest] at split
  exact ⟨_,
    pair_iff_append.2 ⟨_, inner, behind, split, by rw [List.length_take]; omega, rfl, balanced⟩⟩

/-! ## Pairs of a part of a source -/

/-- A pair does not hang on what comes before it. -/
theorem pair_append_left (a : List UInt8) :
    Pair k (a ++ w) (a.length + i) (a.length + j) ↔ Pair k w i j := by
  have between : ((a ++ w).take (a.length + j)).drop (a.length + i + 1) =
      (w.take j).drop (i + 1) := by
    rw [List.take_length_add_append, Nat.add_assoc, List.drop_length_add_append]
  constructor
  · rintro ⟨order, opens, closes, balanced⟩
    refine ⟨by omega, ?_, ?_, between ▸ balanced⟩
    · simpa [List.getElem?_append_right] using opens
    · simpa [List.getElem?_append_right] using closes
  · rintro ⟨order, opens, closes, balanced⟩
    refine ⟨by omega, ?_, ?_, between ▸ balanced⟩
    · simpa [List.getElem?_append_right] using opens
    · simpa [List.getElem?_append_right] using closes

theorem pair_cons (b : UInt8) : Pair k (b :: w) (i + 1) (j + 1) ↔ Pair k w i j := by
  rw [Nat.add_comm i, Nat.add_comm j]
  exact pair_append_left [b]

/-- A pair does not hang on what comes behind it. -/
theorem pair_append_right (inside : j < w.length) (behind : List UInt8) :
    Pair k (w ++ behind) i j ↔ Pair k w i j := by
  have between : (w ++ behind).take j = w.take j := List.take_append_of_le_length inside.le
  constructor
  · rintro ⟨order, opens, closes, balanced⟩
    rw [List.getElem?_append_left (by omega)] at opens
    rw [List.getElem?_append_left inside] at closes
    exact ⟨order, opens, closes, between ▸ balanced⟩
  · rintro ⟨order, opens, closes, balanced⟩
    refine ⟨order, ?_, ?_, by rwa [between]⟩
    · rwa [List.getElem?_append_left (by omega)]
    · rwa [List.getElem?_append_left inside]

/-- A pair stays one whatever is added behind the source. -/
theorem Pair.append_right (h : Pair k w i j) (behind : List UInt8) : Pair k (w ++ behind) i j :=
  (pair_append_right h.lt_length behind).2 h

/-- No pair leads out of a balanced stretch. -/
theorem Balanced.lt_of_pair (h : k.Balanced a) (pair : Pair k (a ++ w) i j)
    (inside : i < a.length) : j < a.length := by
  have opens := pair.opens
  rw [List.getElem?_append_left inside] at opens
  obtain ⟨j', own⟩ := h.exists_pair opens
  rw [pair.unique (own.append_right w)]
  exact own.lt_length

/-- The pairs behind a balanced stretch are all that reach there. -/
theorem Balanced.pair_behind (h : k.Balanced a) (pair : Pair k (a ++ w) i (a.length + j)) :
    ∃ i', i = a.length + i' ∧ Pair k w i' j := by
  have outside : a.length ≤ i := by
    by_contra inside
    have := h.lt_of_pair pair (by omega)
    omega
  obtain ⟨i', rfl⟩ := Nat.exists_eq_add_of_le outside
  exact ⟨i', rfl, (pair_append_left a).1 pair⟩

end Bracket

/-! ## Bytes with their places -/

/-- A byte of a source is known with its place. -/
theorem Located.getElem?_ofBytes {source : List UInt8} {i : Nat} {x : Located}
    (h : (ofBytes source)[i]? = some x) : x.offset = i ∧ source[i]? = some x.byte := by
  rw [ofBytes, List.getElem?_map, List.getElem?_zipIdx] at h
  obtain ⟨b, found, rfl⟩ := Option.map_eq_some_iff.1 h
  obtain ⟨c, here, rfl⟩ := Option.map_eq_some_iff.1 found
  exact ⟨by simp, here⟩

theorem Located.map_byte_ofBytes (source : List UInt8) : (ofBytes source).map byte = source := by
  simp [ofBytes, Function.comp_def]

/-! ## What a capture finds -/

namespace Program

variable {k : Bracket} {d e : Nat} {before stretch source body after : List Located}

/-- A capture counts as it goes. -/
theorem capture_append (h : k.depth d (stretch.map Located.byte) = some e) (rest : List Located) :
    capture k.openingKind k.closingKind d before (stretch ++ rest) =
      capture k.openingKind k.closingKind e (stretch.reverse ++ before) rest := by
  induction stretch generalizing d before with
  | nil =>
    cases h
    rfl
  | cons x stretch ih =>
    rw [List.map_cons] at h
    rw [List.cons_append, List.reverse_cons, List.append_assoc, List.singleton_append]
    by_cases opens : x.kind = k.openingKind
    · rw [(Bracket.ofByte_eq_openingKind k).1 opens, Bracket.depth_opening] at h
      rw [Bracket.capture_opening opens, ih h]
    · by_cases closes : x.kind = k.closingKind
      · rw [(Bracket.ofByte_eq_closingKind k).1 closes] at h
        rw [Bracket.capture_closing closes]
        cases d with
        | zero => cases Bracket.depth_closing_zero.symm.trans h
        | succ d =>
          rw [Bracket.depth_closing] at h
          exact ih h
      · have opening : x.byte ≠ k.opening :=
          fun same => opens ((Bracket.ofByte_eq_openingKind k).2 same)
        have closing : x.byte ≠ k.closing :=
          fun same => closes ((Bracket.ofByte_eq_closingKind k).2 same)
        rw [Bracket.depth_other opening closing] at h
        rw [Bracket.capture_other opens closes, ih h]

/-- A capture that ends has come down to where it began. -/
theorem depth_of_capture
    (h : capture k.openingKind k.closingKind d before source = some (body, after)) :
    ∃ passed z, z.kind = k.closingKind ∧ source = passed ++ z :: after ∧
      body = before.reverse ++ passed ∧ k.depth d (passed.map Located.byte) = some 0 := by
  induction source generalizing d before with
  | nil => simp [capture] at h
  | cons x source ih =>
    by_cases opens : x.kind = k.openingKind
    · rw [Bracket.capture_opening opens] at h
      obtain ⟨passed, z, closes, rfl, rfl, back⟩ := ih h
      refine ⟨x :: passed, z, closes, rfl, by simp, ?_⟩
      rw [List.map_cons, (Bracket.ofByte_eq_openingKind k).1 opens, Bracket.depth_opening, back]
    · by_cases closes : x.kind = k.closingKind
      · rw [Bracket.capture_closing closes] at h
        cases d with
        | zero =>
          simp only [Option.some.injEq, Prod.mk.injEq] at h
          obtain ⟨rfl, rfl⟩ := h
          exact ⟨[], x, closes, rfl, by simp, rfl⟩
        | succ d =>
          obtain ⟨passed, z, closes', rfl, rfl, back⟩ := ih h
          refine ⟨x :: passed, z, closes', rfl, by simp, ?_⟩
          rw [List.map_cons, (Bracket.ofByte_eq_closingKind k).1 closes,
            Bracket.depth_closing, back]
      · rw [Bracket.capture_other opens closes] at h
        obtain ⟨passed, z, closes', rfl, rfl, back⟩ := ih h
        refine ⟨x :: passed, z, closes', rfl, by simp, ?_⟩
        have opening : x.byte ≠ k.opening :=
          fun same => opens ((Bracket.ofByte_eq_openingKind k).2 same)
        have closing : x.byte ≠ k.closing :=
          fun same => closes ((Bracket.ofByte_eq_closingKind k).2 same)
        rw [List.map_cons, Bracket.depth_other opening closing, back]

/-- **A capture finds the partner**: what stands in front of it is balanced. -/
theorem capture_eq_some_iff :
    capture k.openingKind k.closingKind 0 [] source = some (body, after) ↔
      ∃ z, z.kind = k.closingKind ∧ source = body ++ z :: after ∧
        k.Balanced (body.map Located.byte) := by
  constructor
  · intro h
    obtain ⟨passed, z, closes, rfl, rfl, balanced⟩ := depth_of_capture h
    exact ⟨z, closes, rfl, balanced⟩
  · rintro ⟨z, closes, rfl, balanced⟩
    rw [capture_append balanced, Bracket.capture_closing closes]
    simp

end Program

/-- What can be read is balanced in both kinds. -/
theorem Reads.balanced {first : Nat} {source : List Located} {nodes : List Node}
    {bodies : List (List Node)} (h : Reads first source nodes bodies) (k : Bracket) :
    k.Balanced (source.map Located.byte) := by
  -- A closing bracket behind the source is where a capture ends that runs over the source.
  have closes : Located.kind ⟨k.closing, 0⟩ = k.closingKind :=
    (Bracket.ofByte_eq_closingKind k).2 rfl
  have ends : Program.capture k.openingKind k.closingKind 0 [] (source ++ [⟨k.closing, 0⟩]) =
      some (source, []) := (h.passes k).capture closes
  obtain ⟨z, -, split, balanced⟩ := Program.capture_eq_some_iff.1 ends
  exact balanced

end TapeLang
