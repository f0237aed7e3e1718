/-
# Tokens tile their source

The tokens of a source cover its bytes one after the other: the bytes of each token are of its kind,
and each of them ends as late as it can, `Token.Cuts`. This is kept when a byte is put in front,
`Token.Cuts.place`, and also when tokens are taken one by one from a queue, `Token.cuts_tokens`; and
there is only one way to cut a source like this, `Token.Cuts.unique`.

Where two tokens meet, the bytes on both sides are not both comment. All bytes of a character that
takes several ones are comment, so that tokens never meet inside a character: of a line of
characters, each token covers some of them from first to last, and with the texts of all tokens the
whole line is shown.
-/
import TapeLang.Highlight
import TapeLang.Proofs.Grammar

namespace TapeLang

namespace Token

/-! ## Cutting a source -/

/-- Bytes that make one token: all of one kind, and a single one if the kind makes no runs. -/
structure Covers (t : Token) (run : List UInt8) : Prop where
  nonempty : run ≠ []
  kind : ∀ b ∈ run, Kind.ofByte b = t.kind
  single : t.kind.runs = false → run.length = 1
  length : t.length = run.length
  count : t.count = if t.kind.isAmount then run.length else 1

/-- Bytes, the first of which stands at an offset, cut into tokens. No token could be carried on by
the next one. -/
inductive Cuts : Nat → List UInt8 → List Token → Prop
  | nil (n : Nat) : Cuts n [] []
  | cons {n : Nat} {t : Token} {run after : List UInt8} {tokens : List Token}
      (offset : t.offset = n) (covers : t.Covers run)
      (ends : ∀ u ∈ tokens.head?, t.kind = u.kind → t.kind.runs = false)
      (behind : Cuts (n + run.length) after tokens) : Cuts n (run ++ after) (t :: tokens)

variable {n : Nat} {b : UInt8} {t : Token} {run source : List UInt8} {tokens : List Token}

/-- A byte of its own is covered by a token of one byte. -/
theorem covers_single (b : UInt8) (n : Nat) : Covers { kind := .ofByte b, offset := n } [b] where
  nonempty := by simp
  kind := by simp
  single _ := rfl
  length := rfl
  count := by simp

/-- A token that makes runs grows by a byte of its kind. -/
theorem Covers.grow (h : t.Covers run) (same : t.kind = Kind.ofByte b) (runs : t.kind.runs = true)
    (n : Nat) : (t.grow n).Covers (b :: run) where
  nonempty := by simp
  kind c member := by
    rcases List.mem_cons.1 member with rfl | inside
    · exact same.symm
    · exact h.kind c inside
  single alone := by
    have still : t.kind.runs = false := alone
    rw [runs] at still
    cases still
  length := by rw [Token.grow, h.length, List.length_cons]
  count := by
    show (if t.kind.isAmount then t.count + 1 else t.count) =
      if t.kind.isAmount then (b :: run).length else 1
    rw [h.count]
    split <;> rfl

/-- A byte put in front of a source joins the first token, or is one of its own. -/
theorem Cuts.place (h : Cuts (n + 1) source tokens) (b : UInt8) :
    Cuts n (b :: source) (place (b, n) tokens) := by
  cases h with
  | nil => exact .cons rfl (covers_single b n) (by simp) (.nil _)
  | @cons _ t run after tokens offset covers ends behind =>
    simp only [Token.place]
    split
    · rename_i joined
      simp only [Bool.and_eq_true, beq_iff_eq] at joined
      have runs : t.kind.runs = true := by rw [joined.2, joined.1]
      rw [Nat.add_right_comm] at behind
      show Cuts n ((b :: run) ++ after) _
      exact .cons rfl (covers.grow joined.2 runs n) ends behind
    · rename_i apart
      show Cuts n ([b] ++ (run ++ after)) _
      refine .cons rfl (covers_single b n) ?_ (.cons offset covers ends behind)
      intro u first same
      obtain rfl : t = u := Option.some.inj first
      exact Bool.eq_false_iff.2 fun runs => apart (by simp [runs, ← same])

/-- The tokens of a source cut it. -/
theorem cuts_tokenize (source : List UInt8) : Cuts 0 source (tokenize source) := by
  have shifted (n : Nat) : Cuts n source ((source.zipIdx n).foldr Token.place []) := by
    induction source generalizing n with
    | nil => exact .nil n
    | cons b source ih =>
      rw [List.zipIdx_cons, List.foldr_cons]
      exact (ih (n + 1)).place b
  exact shifted 0

namespace Cuts

/-- The first token begins with the first byte. -/
theorem head?_kind (h : Cuts n source tokens) :
    source.head?.map Kind.ofByte = tokens.head?.map Token.kind := by
  cases h with
  | nil => rfl
  | @cons _ t run after tokens offset covers ends behind =>
    cases run with
    | nil => exact absurd rfl covers.nonempty
    | cons b run => simp [covers.kind b List.mem_cons_self]

/-- The first token stands where the bytes begin. -/
theorem head?_offset (h : Cuts n source tokens) (first : t ∈ tokens.head?) : t.offset = n := by
  cases h with
  | nil => cases first
  | cons offset => exact Option.some.inj first ▸ offset

/-- Only no bytes are cut into no tokens. -/
theorem eq_nil_iff (h : Cuts n source tokens) : tokens = [] ↔ source = [] := by
  cases h with
  | nil => simp
  | cons offset covers ends behind => simp [covers.nonempty]

end Cuts

/-! ## Where tokens meet -/

/-- Two stretches of bytes that are not both comment where they meet. -/
def Clean (before after : List UInt8) : Prop :=
  ∀ a ∈ before.getLast?, ∀ b ∈ after.head?, ¬ (Kind.ofByte a = .comment ∧ Kind.ofByte b = .comment)

/-- Bytes before a stretch change nothing about where it meets the next one. -/
theorem Clean.append_left {a before after : List UInt8} (h : Clean before after)
    (nonempty : before ≠ []) : Clean (a ++ before) after := by
  intro x last
  refine h x ?_
  rwa [List.getLast?_append_of_ne_nil a nonempty] at last

theorem clean_nil (after : List UInt8) : Clean [] after := nofun

/-- A token ends where the next byte is not comment as well. -/
theorem Cuts.clean {after : List UInt8} (covers : t.Covers run)
    (ends : ∀ u ∈ tokens.head?, t.kind = u.kind → t.kind.runs = false)
    (behind : Cuts n after tokens) : Clean run after := by
  rintro a last b first ⟨comment, comment'⟩
  have kind : t.kind = .comment := (covers.kind a (List.mem_of_getLast? last)).symm.trans comment
  have next := behind.head?_kind
  rw [first, Option.map_some, comment'] at next
  obtain ⟨u, head, same⟩ := Option.map_eq_some_iff.1 next.symm
  have alone := ends u head (kind.trans same.symm)
  rw [kind] at alone
  cases alone

/-- A source divided at a token: what stands before it, its own bytes, and what stands behind it. -/
structure Splits (n : Nat) (source : List UInt8) (t : Token) (before run after : List UInt8) :
    Prop where
  bytes : source = before ++ (run ++ after)
  offset : t.offset = n + before.length
  covers : t.Covers run
  front : Clean before (run ++ after)
  back : Clean run after

/-- Each token splits the source into what is before it, its own bytes and what is behind it. -/
theorem Cuts.exists_splits (h : Cuts n source tokens) (member : t ∈ tokens) :
    ∃ before run after, Splits n source t before run after := by
  induction h with
  | nil => cases member
  | @cons n u run rest tokens offset covers ends behind ih =>
    have meets := behind.clean covers ends
    rcases List.mem_cons.1 member with rfl | later
    · exact ⟨[], run, rest, rfl, offset, covers, clean_nil _, meets⟩
    · obtain ⟨before, inner, after, splits⟩ := ih later
      refine ⟨run ++ before, inner, after, ?_, ?_, splits.covers, ?_, splits.back⟩
      · rw [splits.bytes, List.append_assoc]
      · rw [splits.offset, List.length_append, Nat.add_assoc]
      · by_cases empty : before = []
        · have bytes := splits.bytes
          rw [empty, List.nil_append] at bytes
          rw [empty, List.append_nil, ← bytes]
          exact meets
        · exact splits.front.append_left empty

/-- The slice of a token is its own bytes. -/
theorem Splits.slice {before after : List UInt8} (h : Splits 0 source t before run after) :
    t.slice source = run := by
  rw [Token.slice, h.bytes, h.offset, Nat.zero_add, List.drop_left, h.covers.length, List.take_left]

/-- The texts of the tokens, one after the other, are the source. -/
theorem Cuts.flatMap_slice (before : List UInt8) (h : Cuts before.length source tokens) :
    tokens.flatMap (fun t => t.slice (before ++ source)) = source := by
  generalize start : before.length = n at h
  induction h generalizing before with
  | nil => rfl
  | @cons n t run after tokens offset covers ends behind ih =>
    have here : t.slice (before ++ (run ++ after)) = run := by
      rw [Token.slice, offset, ← start, List.drop_left, covers.length, List.take_left]
    have others := ih (before ++ run) (by rw [List.length_append, start])
    rw [List.append_assoc] at others
    rw [List.flatMap_cons, here, others]

/-! ## One way to cut -/

/-- A token covers all bytes that it can. -/
theorem Covers.eq_nil_of_append {u : Token} {more after : List UInt8} (covers : t.Covers run)
    (ends : ∀ u ∈ tokens.head?, t.kind = u.kind → t.kind.runs = false)
    (behind : Cuts n (more ++ after) tokens) (longer : u.Covers (run ++ more)) : more = [] := by
  obtain ⟨first, inside⟩ := List.exists_mem_of_ne_nil run covers.nonempty
  have kind : t.kind = u.kind :=
    (covers.kind first inside).symm.trans (longer.kind first (List.mem_append_left more inside))
  cases more with
  | nil => rfl
  | cons b more =>
    -- The token behind would be of the same kind, which makes no runs then.
    have next := behind.head?_kind
    obtain ⟨v, head, same⟩ := Option.map_eq_some_iff.1 next.symm
    have byte : Kind.ofByte b = u.kind := longer.kind b (by simp)
    have alone := ends v head (kind.trans (byte.symm.trans same.symm))
    have long := longer.single (kind ▸ alone)
    have short := List.length_pos_iff.2 covers.nonempty
    simp only [List.length_append, List.length_cons] at long
    omega

/-- One token only covers bytes from an offset on. -/
theorem Covers.unique {u : Token} (h : t.Covers run) (h' : u.Covers run)
    (offset : t.offset = u.offset) : t = u := by
  obtain ⟨b, member⟩ := List.exists_mem_of_ne_nil run h.nonempty
  have kind : t.kind = u.kind := (h.kind b member).symm.trans (h'.kind b member)
  have length : t.length = u.length := h.length.trans h'.length.symm
  have count : t.count = u.count := by rw [h.count, h'.count, kind]
  cases t
  cases u
  simp_all

/-- A source can be cut into tokens in one way only. -/
theorem Cuts.unique {others : List Token} (h : Cuts n source tokens) (h' : Cuts n source others) :
    tokens = others := by
  induction h generalizing others with
  | nil n => exact (h'.eq_nil_iff.2 rfl).symm
  | @cons n t run after tokens offset covers ends behind ih =>
    generalize whole : run ++ after = source at h'
    cases h' with
    | nil => exact absurd (List.append_eq_nil_iff.1 whole).1 covers.nonempty
    | @cons _ u run' after' others offset' covers' ends' behind' =>
      obtain rfl : run = run' := by
        rcases List.append_eq_append_iff.1 whole with ⟨more, rfl, rfl⟩ | ⟨more, rfl, rfl⟩
        · rw [covers.eq_nil_of_append ends behind covers', List.append_nil]
        · rw [covers'.eq_nil_of_append ends' behind' covers, List.append_nil]
      obtain rfl := List.append_cancel_left whole
      rw [covers.unique covers' (offset.trans offset'.symm), ih behind']

end Token

/-! ## Taking tokens from a queue -/

namespace Source

/-- Takes comment until another byte comes. -/
def skipComment (s : Source) : Source :=
  s.advanceTo (s.rest.dropWhile fun x => x.kind == .comment)

/-- Takes a token: an amount operator with its run, a byte of comment with the comment behind it, or
one byte. -/
def nextToken? (s : Source) : Option (Token × Source) :=
  match s.next? with
  | none => none
  | some (b, s) =>
    let kind := Token.Kind.ofByte b
    let start := s.position.toNat
    if kind.isAmount then
      let (count, after) := s.group b
      some ({ kind := kind, offset := start, count := count, length := count }, after)
    else if kind = .comment then
      let after := s.skipComment
      some ({ kind := kind, offset := start, length := s.length - after.length + 1 }, after)
    else some ({ kind := kind, offset := start }, s)

/-- A source that goes on to a rest of its bytes has this rest. -/
theorem rest_advanceTo {s : Source} {rest : List Located} (suffix : rest <:+ s.rest) :
    (s.advanceTo rest).rest = rest := by
  have shorter := suffix.length_le
  simp only [advanceTo]
  split
  · next all => exact (suffix.eq_of_length (by omega)).symm
  · rfl

/-- A token is taken with the bytes that it covers, and the byte behind them does not carry it
on. -/
structure Takes (s : Source) (t : Token) (after : Source) (first : Located) (more : List Located) :
    Prop where
  queue : s.rest = first :: more ++ after.rest
  offset : t.offset = first.offset.toNat
  covers : t.Covers ((first :: more).map Located.byte)
  ends : ∀ y ∈ after.rest.head?, t.kind = y.kind → t.kind.runs = false

section Run

variable {first : Located} {rest : List Located} {p : Located → Bool}

theorem length_takeWhile (p : Located → Bool) (rest : List Located) :
    (rest.takeWhile p).length = rest.length - (rest.dropWhile p).length := by
  have whole := congrArg List.length (List.takeWhile_append_dropWhile (p := p) (l := rest))
  rw [List.length_append] at whole
  omega

/-- A run goes on as long as the bytes are of the kind of its first one. -/
theorem covers_takeWhile {count : Nat} (runs : first.kind.runs = true)
    (same : ∀ y, p y = true ↔ y.kind = first.kind)
    (counts : count = if first.kind.isAmount then rest.length - (rest.dropWhile p).length + 1
      else 1) :
    Token.Covers
      { kind := first.kind, offset := first.offset.toNat, count := count,
        length := rest.length - (rest.dropWhile p).length + 1 }
      ((first :: rest.takeWhile p).map Located.byte) where
  nonempty := by simp
  kind b member := by
    obtain ⟨y, inside, rfl⟩ := List.mem_map.1 member
    rcases List.mem_cons.1 inside with rfl | later
    · rfl
    · exact (same y).1 (List.mem_takeWhile_imp later)
  single alone := by
    have still : first.kind.runs = false := alone
    rw [runs] at still
    cases still
  length := by rw [List.length_map, List.length_cons, length_takeWhile]
  count := by
    rw [List.length_map, List.length_cons, length_takeWhile]
    exact counts

/-- A token that takes all operators of its kind from the queue leaves what is behind them. -/
theorem takes_takeWhile {s after : Source} {count : Nat} (queue : s.rest = first :: rest)
    (behind : after.rest = rest.dropWhile p) (runs : first.kind.runs = true)
    (same : ∀ y, p y = true ↔ y.kind = first.kind)
    (counts : count = if first.kind.isAmount then rest.length - (rest.dropWhile p).length + 1
      else 1) :
    s.Takes
      { kind := first.kind, offset := first.offset.toNat, count := count,
        length := rest.length - (rest.dropWhile p).length + 1 }
      after first (rest.takeWhile p) where
  queue := by rw [queue, behind, List.cons_append, List.takeWhile_append_dropWhile]
  offset := rfl
  covers := covers_takeWhile runs same counts
  ends y head kind := by
    have other := List.head?_dropWhile_not p rest
    rw [← behind, head] at other
    exact absurd ((same y).2 kind.symm) (Bool.eq_false_iff.1 other)

/-- The byte of an amount operator is the only one of its kind. -/
theorem byte_beq_iff (amount : first.kind.isAmount = true) (y : Located) :
    (y.byte == first.byte) = true ↔ y.kind = first.kind := by
  have operator : first.kind ≠ .comment := by
    intro comment
    rw [comment] at amount
    cases amount
  rw [beq_iff_eq, Token.Kind.eq_operator operator]
  exact (Token.Kind.ofByte_eq_iff operator).symm

end Run

/-- Every step of the queue takes a token, if there is still a byte. -/
theorem exists_takes {s : Source} {first : Located} {rest : List Located}
    (queue : s.rest = first :: rest) :
    ∃ t after more, s.nextToken? = some (t, after) ∧ s.Takes t after first more := by
  simp only [nextToken?, next?, queue, group]
  by_cases amount : first.kind.isAmount = true
  · have runs : first.kind.runs = true := by simp [Token.Kind.runs, amount]
    refine ⟨_, _, _, if_pos amount, takes_takeWhile queue ?_ runs (byte_beq_iff amount) ?_⟩
    · exact rest_advanceTo (List.dropWhile_suffix _)
    · rw [if_pos amount]
  · by_cases comment : first.kind = .comment
    · have runs : first.kind.runs = true := by rw [comment]; rfl
      have behind {s : Source} :
          (skipComment s).rest = s.rest.dropWhile fun x => x.kind == .comment :=
        rest_advanceTo (List.dropWhile_suffix _)
      simp only [length, behind]
      refine ⟨_, _, _, (if_neg amount).trans (if_pos comment),
        takes_takeWhile queue behind runs ?_ ?_⟩
      · simp [comment]
      · rw [if_neg amount]
    · refine ⟨_, _, [], (if_neg amount).trans (if_neg comment), queue, rfl,
        Token.covers_single first.byte _, ?_⟩
      intro y _ _
      simp only [Token.Kind.runs, Bool.or_eq_false_iff]
      exact ⟨Bool.eq_false_iff.2 amount, beq_eq_false_iff_ne.2 comment⟩

/-- Each token takes a byte from the queue at least. -/
theorem length_lt_of_nextToken? {s after : Source} {t : Token}
    (h : s.nextToken? = some (t, after)) : after.length < s.length := by
  cases queue : s.rest with
  | nil => simp [nextToken?, next?, queue] at h
  | cons first rest =>
    obtain ⟨u, behind, more, taken, takes⟩ := exists_takes queue
    obtain ⟨rfl, rfl⟩ := Prod.mk.inj (Option.some.inj (h.symm.trans taken))
    have whole := congrArg List.length takes.queue
    rw [List.length_append, List.length_cons] at whole
    rw [length, length]
    omega

/-- Takes tokens until the queue is empty. -/
def tokens (s : Source) : List Token :=
  match taken : s.nextToken? with
  | none => []
  | some (t, after) =>
    have := length_lt_of_nextToken? taken
    t :: after.tokens
termination_by s.length

/-- The tokens that are taken from a queue cut the bytes in it. -/
theorem cuts_tokens {s : Source} {n : Nat} {bytes : List UInt8}
    (queue : s.rest = (bytes.zipIdx n).map fun x => { byte := x.1, offset := x.2 }) :
    Token.Cuts n bytes s.tokens := by
  fun_induction tokens s generalizing n bytes with
  | case1 s none_taken =>
    cases bytes with
    | nil => exact .nil n
    | cons b bytes =>
      obtain ⟨t, after, more, taken, -⟩ := exists_takes queue
      rw [taken] at none_taken
      cases none_taken
  | case2 s t after taken _ ih =>
    cases bytes with
    | nil => simp [nextToken?, next?, queue] at taken
    | cons b bytes =>
      obtain ⟨u, behind, more, taken', takes⟩ := exists_takes queue
      obtain ⟨rfl, rfl⟩ := Prod.mk.inj (Option.some.inj (taken.symm.trans taken'))
      have whole := takes.queue
      rw [queue] at whole
      obtain ⟨_, _, divided, front, rear⟩ := List.map_eq_append_iff.1 whole
      obtain ⟨run, rest, bytes_eq, rfl, rfl⟩ := List.zipIdx_eq_append_iff.1 divided
      have covered : run = (({ byte := b, offset := n } : Located) :: more).map Located.byte := by
        have bytes_of := congrArg (List.map Located.byte) front
        rw [List.map_map] at bytes_of
        simpa [Function.comp_def] using bytes_of
      have behind := ih rear.symm
      rw [bytes_eq]
      refine .cons takes.offset (covered ▸ takes.covers) ?_ behind
      intro u head same
      have byte := behind.head?_kind
      rw [head, Option.map_some] at byte
      obtain ⟨c, next, kind⟩ := Option.map_eq_some_iff.1 byte
      refine takes.ends ⟨c, (n + run.length : Nat)⟩ ?_ (same.trans kind.symm)
      rw [← rear, List.head?_map, List.head?_zipIdx, next]
      rfl

end Source

/-! ## The tiles -/

namespace Token

/-- Tokens that cover a source. -/
structure Tiles (source : List UInt8) (tokens : List Token) : Prop where
  /-- Only an empty source has no tokens. -/
  empty : tokens = [] ↔ source = []
  /-- The first token begins where the source begins. -/
  first : ∀ t ∈ tokens.head?, t.offset = 0
  /-- Every other one begins where the one before it ends. -/
  next : tokens.IsChain fun t u => u.offset = t.offset + t.length
  /-- The last one ends where the source ends. -/
  last : ∀ t ∈ tokens.getLast?, t.offset + t.length = source.length
  /-- A token is never empty and lies inside the source. -/
  inside : ∀ t ∈ tokens, 0 < t.length ∧ t.offset + t.length ≤ source.length
  /-- All bytes of a token are of its kind. -/
  kinds : ∀ t ∈ tokens, ∀ b ∈ t.slice source, Kind.ofByte b = t.kind
  /-- Amount operators are counted, and every other token counts as one. -/
  counts : ∀ t ∈ tokens, t.count = if t.kind.isAmount then t.length else 1
  /-- What makes no runs is a token of a single byte. -/
  singles : ∀ t ∈ tokens, t.kind.runs = false → t.length = 1
  /-- Two tokens of one amount operator, or two of comment, never stand beside each other. -/
  apart : tokens.IsChain fun t u =>
    ¬ (t.kind = u.kind ∧ (t.kind.isAmount = true ∨ t.kind = .comment))
  /-- The texts of the tokens are the source. -/
  whole : tokens.flatMap (fun t => t.slice source) = source

namespace Cuts

variable {n : Nat} {source : List UInt8} {tokens : List Token}

/-- Each token begins where the one before it ends. -/
theorem next (h : Cuts n source tokens) :
    tokens.IsChain fun t u => u.offset = t.offset + t.length := by
  induction h with
  | nil => exact .nil
  | cons offset covers ends behind ih =>
    refine List.isChain_cons.2 ⟨fun u head => ?_, ih⟩
    rw [behind.head?_offset head, offset, covers.length]

/-- The last token ends where the bytes end. -/
theorem last (h : Cuts n source tokens) :
    ∀ t ∈ tokens.getLast?, t.offset + t.length = n + source.length := by
  induction h with
  | nil => exact nofun
  | @cons n t run after tokens offset covers ends behind ih =>
    intro u last
    cases tokens with
    | nil =>
      obtain rfl : t = u := Option.some.inj last
      rw [behind.eq_nil_iff.1 rfl, List.append_nil, offset, covers.length]
    | cons v tokens =>
      rw [List.getLast?_cons_cons] at last
      rw [ih u last, List.length_append, Nat.add_assoc]

/-- Tokens of one amount operator, or of comment, are never side by side. -/
theorem apart (h : Cuts n source tokens) :
    tokens.IsChain fun t u =>
      ¬ (t.kind = u.kind ∧ (t.kind.isAmount = true ∨ t.kind = .comment)) := by
  induction h with
  | nil => exact .nil
  | cons offset covers ends behind ih =>
    refine List.isChain_cons.2 ⟨fun u head => ?_, ih⟩
    rintro ⟨same, run⟩
    have alone := ends u head same
    simp only [Kind.runs, Bool.or_eq_false_iff, beq_eq_false_iff_ne] at alone
    rcases run with amount | comment
    · rw [amount] at alone
      cases alone.1
    · exact alone.2 comment

/-- Tokens that cut a source tile it. -/
theorem tiles (h : Cuts 0 source tokens) : Tiles source tokens where
  empty := h.eq_nil_iff
  first _ head := h.head?_offset head
  next := h.next
  last t final := by rw [h.last t final, Nat.zero_add]
  inside t member := by
    obtain ⟨before, run, after, splits⟩ := h.exists_splits member
    have positive := List.length_pos_iff.2 splits.covers.nonempty
    have length := congrArg List.length splits.bytes
    rw [List.length_append, List.length_append] at length
    rw [splits.offset, splits.covers.length]
    omega
  kinds t member := by
    obtain ⟨before, run, after, splits⟩ := h.exists_splits member
    rw [splits.slice]
    exact splits.covers.kind
  counts t member := by
    obtain ⟨before, run, after, splits⟩ := h.exists_splits member
    rw [splits.covers.count, splits.covers.length]
  singles t member alone := by
    obtain ⟨before, run, after, splits⟩ := h.exists_splits member
    rw [splits.covers.length, splits.covers.single alone]
  apart := h.apart
  whole := h.flatMap_slice []

end Cuts

end Token

/-! ## Lines of characters -/

namespace Utf8

/-- The bytes of a line of characters. What is no character is written as the replacement
character. -/
def ofLine (line : List Int32) : List UInt8 :=
  line.flatMap fun c => encode c.toInt

theorem ofLine_append (a b : List Int32) : ofLine (a ++ b) = ofLine a ++ ofLine b :=
  List.flatMap_append

/-- A character is one byte, or all its bytes are above those of ASCII. -/
theorem encode_cases (v : Int) : (∃ b, encode v = [b]) ∨ ∀ b ∈ encode v, 0x80 ≤ b := by
  have scalar := isScalar_scalarOf v
  rw [encode]
  generalize scalarOf v = n at scalar
  simp only [isScalar, Bool.or_eq_true, Bool.and_eq_true, decide_eq_true_eq] at scalar
  have high (k : Nat) (low : 0x80 ≤ k) (small : k < 0x100) : 0x80 ≤ k.toUInt8 := by
    rw [UInt8.le_iff_toNat_le, Nat.toUInt8_eq, UInt8.toNat_ofNat']
    have : (0x80 : UInt8).toNat = 0x80 := rfl
    omega
  unfold encodeScalar
  split
  · exact .inl ⟨_, rfl⟩
  · right
    split
    · intro b member
      simp only [List.mem_cons, List.not_mem_nil, or_false] at member
      rcases member with rfl | rfl <;> exact high _ (by omega) (by omega)
    · split
      · intro b member
        simp only [List.mem_cons, List.not_mem_nil, or_false] at member
        rcases member with rfl | rfl | rfl <;> exact high _ (by omega) (by omega)
      · intro b member
        simp only [List.mem_cons, List.not_mem_nil, or_false] at member
        rcases member with rfl | rfl | rfl | rfl <;> exact high _ (by omega) (by omega)

end Utf8

namespace Token

/-- A byte beyond ASCII is comment. -/
theorem Kind.ofByte_of_high {b : UInt8} (high : 0x80 ≤ b) : Kind.ofByte b = .comment := by
  by_contra operator
  have byte := Kind.eq_operator operator
  generalize Kind.ofByte b = k at byte
  subst byte
  cases k <;> exact absurd high (by decide)

/-- Inside a character every place lies between two bytes of comment. -/
theorem not_clean_inside {v : Int} {before more after : List UInt8}
    (inside : Utf8.encode v = before ++ more) (starts : before ≠ []) (ends : more ≠ []) :
    ¬ Clean before (more ++ after) := by
  intro clean
  rcases Utf8.encode_cases v with ⟨b, single⟩ | high
  · have length := congrArg List.length (single.symm.trans inside)
    have one := List.length_pos_iff.2 starts
    have other := List.length_pos_iff.2 ends
    rw [List.length_append, List.length_singleton] at length
    omega
  · obtain ⟨x, last⟩ := Option.isSome_iff_exists.1 (List.getLast?_isSome.2 starts)
    obtain ⟨y, rest, rfl⟩ := List.exists_cons_of_ne_nil ends
    refine clean x last y rfl ⟨Kind.ofByte_of_high (high x ?_), Kind.ofByte_of_high (high y ?_)⟩
    · rw [inside]
      exact List.mem_append_left _ (List.mem_of_getLast? last)
    · rw [inside]
      simp

/-- A place in a line that does not lie between two bytes of comment lies between two characters. -/
theorem Clean.exists_line {line : List Int32} {before after : List UInt8}
    (clean : Clean before after) (bytes : Utf8.ofLine line = before ++ after) :
    ∃ front back, line = front ++ back ∧ before = Utf8.ofLine front ∧ after = Utf8.ofLine back := by
  induction line generalizing before with
  | nil =>
    obtain ⟨rfl, rfl⟩ := List.append_eq_nil_iff.1 bytes.symm
    exact ⟨[], [], rfl, rfl, rfl⟩
  | cons c line ih =>
    have first : Utf8.ofLine (c :: line) = Utf8.encode c.toInt ++ Utf8.ofLine line :=
      List.flatMap_cons
    rcases List.append_eq_append_iff.1 (first.symm.trans bytes) with ⟨more, rfl, rest⟩ |
      ⟨more, inside, rfl⟩
    · -- The place lies behind the first character.
      have clean' : Clean more after := by
        by_cases empty : more = []
        · rw [empty]
          exact clean_nil after
        · intro a last
          exact clean a (by rwa [List.getLast?_append_of_ne_nil _ empty])
      obtain ⟨front, back, rfl, rfl, rfl⟩ := ih clean' rest
      exact ⟨c :: front, back, rfl, rfl, rfl⟩
    · -- The place lies in the first character, and so at one of its ends.
      by_cases starts : before = []
      · subst starts
        exact ⟨[], c :: line, rfl, rfl, by rw [first, inside, List.nil_append]⟩
      · by_cases ends : more = []
        · subst ends
          rw [List.append_nil] at inside
          exact ⟨[c], line, rfl, by rw [← inside]; simp [Utf8.ofLine], rfl⟩
        · exact absurd clean (not_clean_inside inside starts ends)

/-- The bytes of a token of a line are those of some of its characters. -/
theorem exists_characters {line : List Int32} {t : Token}
    (member : t ∈ tokenize (Utf8.ofLine line)) :
    ∃ front part back, line = front ++ part ++ back ∧ t.offset = (Utf8.ofLine front).length ∧
      t.offset + t.length = (Utf8.ofLine (front ++ part)).length ∧
        t.slice (Utf8.ofLine line) = Utf8.ofLine part := by
  obtain ⟨before, run, after, splits⟩ := (cuts_tokenize (Utf8.ofLine line)).exists_splits member
  obtain ⟨front, behind, rfl, rfl, rest⟩ := splits.front.exists_line splits.bytes
  obtain ⟨part, back, rfl, rfl, rfl⟩ := splits.back.exists_line rest.symm
  refine ⟨front, part, back, (List.append_assoc ..).symm, ?_, ?_, splits.slice⟩
  · rw [splits.offset, Nat.zero_add]
  · rw [splits.offset, splits.covers.length, Nat.zero_add, Utf8.ofLine_append, List.length_append]

end Token

/-- **Tokens tile their source, and a line is shown as it is.** Whatever the bytes, their tokens
cover them, as taken from the queue one after the other. A line of characters is shown token by
token, each one beginning and ending between two characters inside the line; without their colours
these texts are the line. -/
theorem highlightLine_tiles (source : List UInt8) (line : List Int32) (on : Bool) :
    Token.Tiles source (Token.tokenize source) ∧
    Token.tokenize source = (Source.ofBytes source).tokens ∧
    highlightLine on line = (Token.tokenize (Utf8.ofLine line)).flatMap
      (fun t => t.kind.colour.paintBytes on (t.slice (Utf8.ofLine line))) ∧
    (∀ t ∈ Token.tokenize (Utf8.ofLine line), ∃ front part back, line = front ++ part ++ back ∧
      t.offset = (Utf8.ofLine front).length ∧
      t.offset + t.length = (Utf8.ofLine (front ++ part)).length ∧
      t.slice (Utf8.ofLine line) = Utf8.ofLine part) ∧
    (Token.tokenize (Utf8.ofLine line)).flatMap (fun t => t.slice (Utf8.ofLine line)) =
      Utf8.ofLine line ∧ highlightLine false line = Utf8.ofLine line := by
  have whole := (Token.cuts_tokenize (Utf8.ofLine line)).tiles.whole
  refine ⟨(Token.cuts_tokenize source).tiles, ?_, rfl, fun t member =>
    Token.exists_characters member, whole, whole⟩
  exact (Token.cuts_tokenize source).unique (Source.cuts_tokens rfl)

/-- A plus, a character of two bytes, and what is no character. -/
example : highlightLine false [0x2B, 0xE9, -1] = [0x2B, 0xC3, 0xA9, 0xEF, 0xBF, 0xBD] := by
  decide

end TapeLang
