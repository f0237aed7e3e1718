/-
# Programs and their tokens

A program and the tokens of its source are found independently of each other. Written out in the
order of the source, with each procedure where it is registered, the program gives back the tokens:
comment is left out, and nothing else is. So no operator is lost, runs are the same for both, and
each body stands under the number by which it is registered: `Program.flatten_of_parse`.

Both sides are followed along the rules by which a source reads. On the side of the tokens this
needs no places, only what the tokens are made of, and that a bracket ends every run:
`Token.tally_append`.
-/
import TapeLang.Proofs.Grammar

namespace TapeLang

/-! ## Writing out a program -/

/-- A kind of token with its count. -/
abbrev Item := Token.Kind × Nat

/-- An amount as an operator of its sign with the size of the amount. Zero is no amount. -/
def Item.signed (up down : Token.Kind) (amount : Int) : Option Item :=
  if 0 < amount then some (up, amount.natAbs)
  else if amount < 0 then some (down, amount.natAbs)
  else none

theorem Item.signed_of_pos {up down : Token.Kind} {amount : Int} (h : 0 < amount) :
    signed up down amount = some (up, amount.natAbs) :=
  if_pos h

theorem Item.signed_neg_of_pos {up down : Token.Kind} {amount : Int} (h : 0 < amount) :
    signed up down (-amount) = some (down, amount.natAbs) := by
  rw [signed, if_neg (by omega), if_pos (by omega), Int.natAbs_neg]

namespace Node

/-- The operator of a node that holds no others. -/
def item? : Node → Option Item
  | amend delta => Item.signed .increment .decrement delta
  | move delta => Item.signed .forward .back delta
  | read => some (.read, 1)
  | write => some (.write, 1)
  | call => some (.call, 1)
  | _ => none

/-- Nodes written out, each procedure where it is registered. Procedures inside procedures are
written out down to a level; nodes that a source cannot give are not written out. -/
def flattenAll (procedures : List Procedure) (level : Nat) (nodes : List Node) :
    Option (List Item) :=
  match nodes with
  | [] => some []
  | .zero :: rest => do
    let after ← flattenAll procedures level rest
    return (.loopOpen, 1) :: (.decrement, 1) :: (.loopClose, 1) :: after
  | .loop body :: rest => do
    let inner ← flattenAll procedures level body
    let after ← flattenAll procedures level rest
    return (.loopOpen, 1) :: (inner ++ (.loopClose, 1) :: after)
  | .register id :: rest =>
    match level with
    | 0 => none
    | level + 1 => do
      let procedure ← if 0 ≤ id then procedures[id.toNat]? else none
      let inner ← flattenAll procedures level procedure.body
      let after ← flattenAll procedures (level + 1) rest
      return (.procOpen, 1) :: (inner ++ (.procClose, 1) :: after)
  | leaf :: rest => do
    let item ← leaf.item?
    let after ← flattenAll procedures level rest
    return item :: after
termination_by (level, sizeOf nodes)

/-- The number of nodes that hold no others and register nothing. -/
def leafCount : List Node → Nat
  | [] => 0
  | .loop body :: rest => leafCount body + leafCount rest
  | .register _ :: rest => leafCount rest
  | _ :: rest => leafCount rest + 1

end Node

namespace Program

/-- A program written out. No procedure stands inside more procedures than there are. -/
def flatten (p : Program) : Option (List Item) :=
  Node.flattenAll p.procedures p.procedures.length p.main

/-- The number of leaves of a program, with those of its procedures. -/
def leafCount (p : Program) : Nat :=
  Node.leafCount p.main + (p.procedures.map fun q => Node.leafCount q.body).sum

end Program

/-! ## Tokens without their places -/

namespace Token

/-- Whether a kind is an operator other than a bracket. -/
def Kind.isLeaf : Kind → Bool
  | comment | loopOpen | loopClose | procOpen | procClose => false
  | _ => true

/-- What the tokens are made of that are not comment. -/
def significant (tokens : List Token) : List Item :=
  (tokens.filter fun t => t.kind != .comment).map fun t => (t.kind, t.count)

/-- Puts a byte in front of items, as `place` does with tokens. -/
def join (b : UInt8) (items : List Item) : List Item :=
  match items with
  | [] => [(.ofByte b, 1)]
  | i :: rest =>
    if (Kind.ofByte b).runs && i.1 == Kind.ofByte b then
      (i.1, if i.1.isAmount then i.2 + 1 else i.2) :: rest
    else (.ofByte b, 1) :: i :: rest

/-- What the tokens of a source are made of. -/
def tally (source : List UInt8) : List Item :=
  source.foldr join []

/-- Placing a byte in front of tokens joins it to their kinds and counts. -/
theorem map_place (x : UInt8 × Nat) (tokens : List Token) :
    (place x tokens).map (fun t => (t.kind, t.count)) =
      join x.1 (tokens.map fun t => (t.kind, t.count)) := by
  cases tokens with
  | nil => rfl
  | cons t rest =>
    simp only [place, join, List.map_cons]
    split <;> rfl

/-- The kinds and counts of the tokens of a source are its tally. -/
theorem map_tokenize (source : List UInt8) :
    (tokenize source).map (fun t => (t.kind, t.count)) = tally source := by
  have shifted (n : Nat) : ((source.zipIdx n).foldr place []).map (fun t => (t.kind, t.count)) =
      tally source := by
    induction source generalizing n with
    | nil => rfl
    | cons b source ih =>
      rw [List.zipIdx_cons, List.foldr_cons, map_place, ih, tally, tally, List.foldr_cons]
  exact shifted 0

/-- The items of a source that are not comment. -/
def items (source : List UInt8) : List Item :=
  (tally source).filter fun i => i.1 != .comment

/-- The items of a source are its tokens that are not comment. -/
theorem significant_tokenize (source : List UInt8) :
    significant (tokenize source) = items source := by
  rw [items, ← map_tokenize, List.filter_map]
  rfl

variable {b : UInt8} {source : List UInt8}

/-- A byte that makes no runs is a token of its own. -/
theorem tally_cons_of_not_runs (h : (Kind.ofByte b).runs = false) :
    tally (b :: source) = (.ofByte b, 1) :: tally source := by
  rw [tally, List.foldr_cons, ← tally]
  cases tally source with
  | nil => rfl
  | cons i rest => simp [join, h]

/-- A byte that makes no runs divides the tokens of a source into those before and those behind
it. -/
theorem tally_append (h : (Kind.ofByte b).runs = false) (before : List UInt8) :
    tally (before ++ b :: source) = tally before ++ (.ofByte b, 1) :: tally source := by
  induction before with
  | nil => exact tally_cons_of_not_runs h
  | cons c before ih =>
    simp only [tally, List.cons_append, List.foldr_cons] at ih ⊢
    rw [ih]
    cases before.foldr join [] with
    | nil =>
      -- The byte in front of `b` is not joined to it, whatever it is.
      have apart : ((Kind.ofByte c).runs && Kind.ofByte b == Kind.ofByte c) = false := by
        rw [Bool.and_eq_false_iff]
        by_cases same : Kind.ofByte b = Kind.ofByte c
        · exact .inl (same ▸ h)
        · exact .inr (by simpa using same)
      simp [join, apart]
    | cons i rest =>
      simp only [join, List.cons_append]
      split <;> rfl

/-- The first item is that of the first byte. -/
theorem exists_tally_cons (b : UInt8) (source : List UInt8) :
    ∃ count rest, tally (b :: source) = (.ofByte b, count) :: rest := by
  rw [tally, List.foldr_cons]
  cases source.foldr join [] with
  | nil => exact ⟨_, _, rfl⟩
  | cons i rest =>
    simp only [join]
    split
    · rename_i joined
      simp only [Bool.and_eq_true, beq_iff_eq] at joined
      exact ⟨_, _, by rw [joined.2]⟩
    · exact ⟨_, _, rfl⟩

/-- A run of an amount operator is one item, when it is not carried on. -/
theorem tally_run (h : (Kind.ofByte b).isAmount = true) (n : Nat)
    (ends : ∀ c rest, source = c :: rest → c ≠ b) :
    tally (List.replicate (n + 1) b ++ source) = (.ofByte b, n + 1) :: tally source := by
  have runs : (Kind.ofByte b).runs = true := by simp [Kind.runs, h]
  induction n with
  | zero =>
    cases source with
    | nil => rfl
    | cons c rest =>
      obtain ⟨count, others, first⟩ := exists_tally_cons c rest
      -- Two operators of one kind are one byte, so another byte is of another kind.
      have apart : Kind.ofByte c ≠ Kind.ofByte b := by
        intro same
        have operator : Kind.ofByte b ≠ .comment := by
          intro comment
          rw [comment] at h
          cases h
        have hc := Kind.eq_operator (same ▸ operator)
        have hb := Kind.eq_operator operator
        exact ends c rest rfl (hc.trans (same ▸ hb.symm))
      rw [List.replicate_one, List.singleton_append, tally, List.foldr_cons, ← tally, first]
      simp [join, apart]
  | succ n ih =>
    rw [List.replicate_succ, List.cons_append, tally, List.foldr_cons, ← tally, ih]
    simp [join, runs, h]

/-- Comment in front of a source adds no item. -/
theorem items_comment (h : Kind.ofByte b = .comment) : items (b :: source) = items source := by
  rw [items, items, tally, List.foldr_cons, ← tally]
  cases tally source with
  | nil => simp [join, h]
  | cons i rest =>
    simp only [join, h]
    split
    · rename_i joined
      simp only [Bool.and_eq_true, beq_iff_eq] at joined
      simp [joined.2]
    · simp

/-- A byte that makes no runs divides the items of a source. -/
theorem items_append (h : (Kind.ofByte b).runs = false) (before : List UInt8) :
    items (before ++ b :: source) = items before ++ (.ofByte b, 1) :: items source := by
  have significant : (Kind.ofByte b != .comment) = true := by
    rw [Kind.runs, Bool.or_eq_false_iff] at h
    simpa using h.2
  rw [items, tally_append h, List.filter_append, List.filter_cons, if_pos significant]
  rfl

theorem items_cons (h : (Kind.ofByte b).runs = false) :
    items (b :: source) = (.ofByte b, 1) :: items source :=
  items_append h []

/-- The items of bytes of which the places are known. -/
def itemsOf (source : List Located) : List Item :=
  items (source.map Located.byte)

@[simp] theorem itemsOf_nil : itemsOf [] = [] := rfl

section Located

variable {x z : Located} {body source : List Located}

theorem itemsOf_comment (h : x.kind = .comment) : itemsOf (x :: source) = itemsOf source :=
  items_comment h

theorem itemsOf_cons (h : x.kind.runs = false) :
    itemsOf (x :: source) = (x.kind, 1) :: itemsOf source :=
  items_cons h

/-- A byte that makes no runs divides the items, wherever it was located. -/
theorem itemsOf_append (h : z.kind.runs = false) :
    itemsOf (body ++ z :: source) = itemsOf body ++ (z.kind, 1) :: itemsOf source := by
  rw [itemsOf, List.map_append, List.map_cons, items_append h]
  rfl

/-- The items of a pair of brackets are the brackets, with the items between them. -/
theorem itemsOf_pair {k : Bracket} (opens : x.kind = k.openingKind)
    (closes : z.kind = k.closingKind) :
    itemsOf (x :: (body ++ z :: source)) =
      (k.openingKind, 1) :: (itemsOf body ++ (k.closingKind, 1) :: itemsOf source) := by
  have first : x.kind.runs = false := by
    rw [opens]
    cases k <;> rfl
  have last : z.kind.runs = false := by
    rw [closes]
    cases k <;> rfl
  rw [itemsOf_cons first, itemsOf_append last, opens, closes]

/-- A loop that holds one decrement has three items. -/
theorem itemsOf_zero {y : Located} (hx : x.kind = .loopOpen) (hy : y.kind = .decrement)
    (hz : z.kind = .loopClose) :
    itemsOf (x :: y :: z :: source) =
      (.loopOpen, 1) :: (.decrement, 1) :: (.loopClose, 1) :: itemsOf source := by
  have inner : itemsOf [y] = [(.decrement, 1)] := by
    rw [itemsOf, List.map_singleton, (Kind.ofByte_eq_iff (by decide)).1 hy]
    rfl
  have whole : itemsOf (x :: ([y] ++ z :: source)) = _ := itemsOf_pair (k := .loop) hx hz
  rw [inner] at whole
  exact whole

theorem itemsOf_operator {node : Node} (h : Node.ofOperator? x.kind = some node) :
    itemsOf (x :: source) = (x.kind, 1) :: itemsOf source := by
  have alone : x.kind.runs = false := by
    generalize x.kind = kind at h ⊢
    cases kind <;> first | rfl | cases h
  exact itemsOf_cons alone

end Located

/-- The items of a run are one operator, with the length of the run as its count. -/
theorem itemsOf_run {count : Int} {node : Node} {x : Located} {source : List Located}
    (h : Node.ofRun? count x.kind = some node) :
    itemsOf (x :: source) =
      (x.kind, (Program.runLength x source).natAbs) :: itemsOf (Program.afterRun x source) := by
  have amount : x.kind.isAmount = true := by
    generalize x.kind = kind at h ⊢
    cases kind <;> first | rfl | cases h
  have significant : (x.kind != .comment) = true := by
    generalize x.kind = kind at amount ⊢
    cases kind <;> first | rfl | cases amount
  have repeated : (Program.runOf x source).map Located.byte =
      List.replicate (Program.runOf x source).length x.byte := by
    rw [List.eq_replicate_iff]
    refine ⟨List.length_map .., fun b hb => ?_⟩
    obtain ⟨y, hy, rfl⟩ := List.mem_map.1 hb
    exact Program.byte_of_mem_runOf hy
  have ends (c : UInt8) (rest : List UInt8)
      (h : (Program.afterRun x source).map Located.byte = c :: rest) : c ≠ x.byte := by
    obtain ⟨y, tail, split, rfl, -⟩ := List.map_eq_cons_iff.1 h
    have other := List.head?_dropWhile_not (fun y : Located => y.byte == x.byte) source
    rw [← Program.afterRun, split] at other
    simpa using other
  have bytes : (x :: source).map Located.byte =
      List.replicate ((Program.runOf x source).length + 1) x.byte ++
        (Program.afterRun x source).map Located.byte := by
    rw [List.replicate_succ, ← repeated, List.cons_append, ← List.map_append,
      Program.runOf_append_afterRun, List.map_cons]
  rw [itemsOf, bytes, items, tally_run amount _ ends]
  exact List.filter_cons_of_pos significant

end Token

/-! ## Nodes and tokens agree -/

/-- A run has an operator at least. -/
theorem Program.runLength_pos (x : Located) (source : List Located) : 0 < runLength x source := by
  unfold runLength
  omega

/-- The item of a node that a run gives is its operator and its length. -/
theorem Node.item?_of_run {count : Int} {kind : Token.Kind} {node : Node} (positive : 0 < count)
    (h : ofRun? count kind = some node) : node.item? = some (kind, count.natAbs) := by
  cases kind <;> cases h
  · exact Item.signed_of_pos positive
  · exact Item.signed_neg_of_pos positive
  · exact Item.signed_of_pos positive
  · exact Item.signed_neg_of_pos positive

/-- The item of a node that a single operator gives is that operator once. -/
theorem Node.item?_of_operator {kind : Token.Kind} {node : Node}
    (h : ofOperator? kind = some node) : node.item? = some (kind, 1) := by
  cases kind <;> cases h <;> rfl

/-- A node with an item is written out as this item in front of the others. -/
theorem Node.flattenAll_of_item? {procedures : List Procedure} {level : Nat} {node : Node}
    {rest : List Node} {item : Item} {items : List Item} (h : node.item? = some item)
    (after : flattenAll procedures level rest = some items) :
    flattenAll procedures level (node :: rest) = some (item :: items) := by
  cases node with
  | sequence | zero | loop | procedure | register => cases h
  | move | amend | read | write | call => simp [flattenAll, h, after]

/-- A node with an item is one leaf. -/
theorem Node.leafCount_of_item? {node : Node} {rest : List Node} {item : Item}
    (h : node.item? = some item) : leafCount (node :: rest) = leafCount rest + 1 := by
  cases node with
  | sequence | zero | loop | procedure | register => cases h
  | move | amend | read | write | call => rw [leafCount] <;> exact nofun

/-- The number of items that are operators other than brackets. -/
def Item.leafCount (items : List Item) : Nat :=
  items.countP fun i => i.1.isLeaf

theorem Item.leafCount_cons (i : Item) (items : List Item) :
    leafCount (i :: items) = leafCount items + if i.1.isLeaf then 1 else 0 :=
  List.countP_cons

/-- Brackets are no leaves. -/
theorem Item.leafCount_pair (k : Bracket) (inner items : List Item) :
    leafCount ((k.openingKind, 1) :: (inner ++ (k.closingKind, 1) :: items)) =
      leafCount inner + leafCount items := by
  have inside : leafCount (inner ++ (k.closingKind, 1) :: items) =
      leafCount inner + leafCount ((k.closingKind, 1) :: items) := List.countP_append
  rw [leafCount_cons, inside, leafCount_cons]
  cases k <;> rfl

/-- The leaves among the items are the tokens that are operators other than brackets. -/
theorem Item.leafCount_significant (tokens : List Token) :
    leafCount (Token.significant tokens) = tokens.countP fun t => t.kind.isLeaf := by
  rw [leafCount, Token.significant, List.countP_map, List.countP_filter]
  refine List.countP_congr fun t _ => ?_
  cases h : t.kind <;> simp [h, Token.Kind.isLeaf]

/-- Procedures that hold bodies from a number on. -/
def Procedure.Hold (procedures : List Procedure) (first : Nat) (bodies : List (List Node)) : Prop :=
  ∃ others, (procedures.map Procedure.body).drop first = bodies ++ others

namespace Procedure.Hold

variable {procedures : List Procedure} {first : Nat} {a b : List (List Node)}

theorem left (h : Hold procedures first (a ++ b)) : Hold procedures first a := by
  obtain ⟨others, held⟩ := h
  exact ⟨b ++ others, by rw [held, List.append_assoc]⟩

theorem right (h : Hold procedures first (a ++ b)) : Hold procedures (first + a.length) b := by
  obtain ⟨others, held⟩ := h
  refine ⟨others, ?_⟩
  rw [← List.drop_drop, held, List.append_assoc, List.drop_left]

/-- The first body is that of the procedure with the first number. -/
theorem head {body : List Node} (h : Hold procedures first (body :: b)) :
    ∃ q, procedures[first]? = some q ∧ q.body = body := by
  obtain ⟨others, held⟩ := h
  have found : (procedures.map Procedure.body)[first]? = some body := by
    rw [← List.head?_drop, held]
    rfl
  rw [List.getElem?_map] at found
  exact Option.map_eq_some_iff.1 found

end Procedure.Hold

namespace Reads

open Token (itemsOf)

variable {first : Nat} {source : List Located} {nodes : List Node} {bodies : List (List Node)}

/-- Writing out what a body reads as gives the items of the body. A level for each procedure in it
is enough. -/
theorem flattenAll_eq (h : Reads first source nodes bodies) {procedures : List Procedure}
    (held : Procedure.Hold procedures first bodies) {level : Nat} (enough : bodies.length ≤ level) :
    Node.flattenAll procedures level nodes = some (itemsOf source) := by
  induction h generalizing level with
  | nil => simp [Node.flattenAll]
  | comment hx _ ih => rw [Token.itemsOf_comment hx, ih held enough]
  | @run _ x source _ _ _ hx _ ih =>
    rw [Token.itemsOf_run hx]
    exact Node.flattenAll_of_item? (Node.item?_of_run (Program.runLength_pos x source) hx)
      (ih held enough)
  | operator hx _ ih =>
    rw [Token.itemsOf_operator hx]
    exact Node.flattenAll_of_item? (Node.item?_of_operator hx) (ih held enough)
  | zero hx hy hz _ ih =>
    rw [Node.flattenAll, ih held enough, Token.itemsOf_zero hx hy hz]
    rfl
  | loop hx hz _ _ _ ihBody ih =>
    rw [List.length_append] at enough
    rw [Node.flattenAll, ihBody held.left (by omega), ih held.right (by omega),
      Token.itemsOf_pair (k := .loop) hx hz]
    rfl
  | procedure hx hz _ _ ihBody ih =>
    -- The body that is held first is that of this procedure, behind it those of the procedures
    -- inside, and behind these the ones that come later.
    obtain ⟨q, found, rfl⟩ := held.head
    have others := Procedure.Hold.right (a := [_]) held
    rw [List.length_cons, List.length_append] at enough
    obtain ⟨level, rfl⟩ : ∃ n, level = n + 1 := ⟨level - 1, by omega⟩
    rw [Node.flattenAll]
    simp only [Int.natCast_nonneg, if_true, Int.toNat_natCast, found, Option.bind_eq_bind,
      Option.bind_some]
    rw [ihBody others.left (by omega), ih others.right (by omega),
      Token.itemsOf_pair (k := .procedure) hx hz]
    rfl

/-- The leaves that a body reads as, with those of the procedures in it, are the operators of the
body. -/
theorem leafCount_eq (h : Reads first source nodes bodies) :
    Node.leafCount nodes + (bodies.map Node.leafCount).sum = Item.leafCount (itemsOf source) := by
  induction h with
  | nil => simp [Node.leafCount, Item.leafCount]
  | comment hx _ ih => rw [Token.itemsOf_comment hx, ih]
  | @run _ x source _ _ _ hx _ ih =>
    have item := Node.item?_of_run (Program.runLength_pos x source) hx
    have leaf : x.kind.isLeaf = true := by
      generalize x.kind = kind at hx ⊢
      cases kind <;> first | rfl | cases hx
    rw [Token.itemsOf_run hx, Item.leafCount_cons, leaf, Node.leafCount_of_item? item, ← ih]
    simp only [if_true]
    omega
  | @operator _ x _ _ _ _ hx _ ih =>
    have item := Node.item?_of_operator hx
    have leaf : x.kind.isLeaf = true := by
      generalize x.kind = kind at hx ⊢
      cases kind <;> first | rfl | cases hx
    rw [Token.itemsOf_operator hx, Item.leafCount_cons, leaf, Node.leafCount_of_item? item, ← ih]
    simp only [if_true]
    omega
  | zero hx hy hz _ ih =>
    -- One leaf, and one operator between two brackets.
    rw [Token.itemsOf_zero hx hy hz, Node.leafCount]
    · simp only [Item.leafCount_cons, Token.Kind.isLeaf, if_true, Bool.false_eq_true,
        if_false, ← ih]
      omega
    all_goals exact nofun
  | loop hx hz _ _ _ ihBody ih =>
    rw [Token.itemsOf_pair (k := .loop) hx hz, Item.leafCount_pair, ← ih, ← ihBody, Node.leafCount,
      List.map_append, List.sum_append]
    omega
  | procedure hx hz _ _ ihBody ih =>
    rw [Token.itemsOf_pair (k := .procedure) hx hz, Item.leafCount_pair, ← ih, ← ihBody,
      Node.leafCount, List.map_cons, List.map_append, List.sum_cons, List.sum_append]
    omega

end Reads

namespace Program

/-- Numbering the bodies of procedures keeps them in order. -/
theorem map_body_numbered (bodies : List (List Node)) :
    (numbered bodies.toArray).map Procedure.body = bodies := by
  simp [numbered, Function.comp_def]

/-- **A program holds what its source holds.** Written out, it gives the tokens of its source that
are not comment, each with its count. So it has as many leaves as the source has operators, where a
run counts as one and brackets do not count. -/
theorem flatten_of_parse {source : List UInt8} {p : Program} (h : parse source = .ok p) :
    p.flatten = some (Token.significant (Token.tokenize source)) ∧
      p.leafCount = (Token.tokenize source).countP fun t => t.kind.isLeaf := by
  obtain ⟨main, bodies, reads, rfl⟩ := parse_eq_ok_iff.1 h
  have bytes : Token.itemsOf (Located.ofBytes source) =
      Token.significant (Token.tokenize source) := by
    rw [Token.significant_tokenize, Token.itemsOf, Located.ofBytes, List.map_map]
    simp [Function.comp_def]
  have held : Procedure.Hold (numbered bodies.toArray) 0 bodies := ⟨[], by simp [map_body_numbered]⟩
  constructor
  · rw [flatten, ← bytes]
    refine reads.flattenAll_eq held (Nat.le_of_eq ?_)
    simp [numbered]
  · have leaves : ((numbered bodies.toArray).map fun q => Node.leafCount q.body) =
        bodies.map Node.leafCount := by
      have mapped := congrArg (List.map Node.leafCount) (map_body_numbered bodies)
      rwa [List.map_map] at mapped
    rw [leafCount, leaves, reads.leafCount_eq, bytes, Item.leafCount_significant]

/-- A source with a procedure inside another, a loop that sets a cell to zero, and runs that comment
cuts in two. -/
theorem flatten_of_parse_nested :
    ∃ p, parse "(+[-](>.)):<<[,+ +]".toUTF8.toList = .ok p ∧
      p.flatten = some (Token.significant (Token.tokenize "(+[-](>.)):<<[,+ +]".toUTF8.toList)) ∧
      p.leafCount =
        (Token.tokenize "(+[-](>.)):<<[,+ +]".toUTF8.toList).countP fun t => t.kind.isLeaf := by
  have read : parse "(+[-](>.)):<<[,+ +]".toUTF8.toList =
      .ok { main := [.register 0, .call, .move (-2), .loop [.read, .amend 1, .amend 1]]
            procedures := [⟨0, [.amend 1, .zero, .register 1]⟩, ⟨1, [.move 1, .write]⟩]
            calls := 1 } := by
    cbv
  exact ⟨_, read, flatten_of_parse read⟩

end Program

end TapeLang
