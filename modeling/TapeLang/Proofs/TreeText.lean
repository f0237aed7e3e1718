/-
# The text of a tree tells the tree

The text of a node is made of a word, of a number for some words, and of a body in parentheses for
some words. No word is the beginning of another one, and each word has its own form
(`Node.form_eq_of_append`). A number ends where its digits end, and a body where its parenthesis is
closed, since no node begins with a closing parenthesis.

So what stands in front of a longer text is the text of one node only, and it tells where the node
ends: `Node.eq_of_append`, by induction on the tree. The text of a program has one line for its main
body and one for each procedure, which are told one after another: `Program.text_eq_iff`.
-/
import Mathlib
import TapeLang.Program

namespace TapeLang

/-! ## Numbers -/

namespace Decimal

/-- The characters of decimals. -/
def isNumeric (c : Char) : Bool :=
  c == '-' || c.isDigit

/-- The text of a number has digits and a sign only. -/
theorem isNumeric_of_mem_text (n : Int) : ∀ c ∈ (text n).toList, isNumeric c = true := by
  have digits (m : Nat) : ∀ c ∈ m.repr.toList, isNumeric c = true := by
    intro c member
    rw [Nat.toList_repr] at member
    rw [isNumeric, Nat.isDigit_of_mem_toDigits (by omega) (by omega) member, Bool.or_true]
  intro c member
  cases n with
  | ofNat m => exact digits m c member
  | negSucc m =>
    rw [text, String.toList_append] at member
    rcases List.mem_append.1 member with sign | digit
    · obtain rfl := List.mem_singleton.1 sign
      rfl
    · exact digits (m + 1) c digit

/-- **A decimal tells the integer**, and where it ends. -/
theorem text_append_inj {a b : Int} {c d : Char} {x y : List Char} (ends : isNumeric c = false)
    (ends' : isNumeric d = false) (same : (text a).toList ++ c :: x = (text b).toList ++ d :: y) :
    a = b ∧ c :: x = d :: y := by
  have front (n : Int) {c : Char} (ends : isNumeric c = false) (x : List Char) :
      ((text n).toList ++ c :: x).takeWhile isNumeric = (text n).toList := by
    rw [List.takeWhile_append_of_pos (isNumeric_of_mem_text n), List.takeWhile_cons, ends,
      if_neg Bool.false_ne_true, List.append_nil]
  have texts : (text a).toList = (text b).toList := by
    rw [← front a ends x, same, front b ends' y]
  rw [texts] at same
  exact ⟨Int.repr_injective (String.toList_injective texts), List.append_cancel_left same⟩

end Decimal

namespace Node

/-! ## Texts behind texts -/

mutual

/-- A text that is written first stays in front. -/
theorem writeText_eq (out : String) (node : Node) : node.writeText out = out ++ node.text := by
  match node with
  | sequence body | loop body | procedure _ body =>
    simp only [text, writeText, String.empty_append]
    rw [writeTexts_eq]
    conv_rhs => rw [writeTexts_eq]
    simp only [String.append_assoc]
  | move _ | amend _ | read | write | zero | register _ | call =>
    simp only [text, writeText, String.append_assoc, String.empty_append]

/-- Texts are written behind what was written before. -/
theorem writeTexts_eq (out : String) (nodes : List Node) :
    writeTexts out nodes = out ++ writeTexts "" nodes := by
  match nodes with
  | [] => rw [writeTexts, writeTexts, String.append_empty]
  | [node] =>
    simp only [writeTexts]
    rw [writeText_eq]
    rfl
  | node :: next :: rest =>
    simp only [writeTexts]
    rw [writeTexts_eq, writeTexts_eq (_ ++ " "), writeText_eq]
    simp only [text, String.append_assoc]

end

/-- The characters of nodes, with a blank between two of them. -/
def spelling (nodes : List Node) : List Char :=
  (writeTexts "" nodes).toList

/-- The characters of nodes that come behind another node. -/
def spaced : List Node → List Char
  | [] => []
  | nodes => ' ' :: spelling nodes

/-- Nodes are spelled one after another, with spaces between them. -/
theorem spelling_cons (node : Node) (rest : List Node) :
    spelling (node :: rest) = node.text.toList ++ spaced rest := by
  cases rest with
  | nil => exact (List.append_nil _).symm
  | cons next rest =>
    rw [spelling, writeTexts, writeTexts_eq, String.toList_append, String.toList_append,
      List.append_assoc]
    rfl

/-! ## The parts of a text -/

/-- What the text of a node is made of. -/
structure Parts where
  word : String
  number : Option Int := none
  body : Option (List Node) := none

/-- The parts of the text of a node. -/
def parts : Node → Parts
  | sequence body => { word := "(", body := some body }
  | move delta => { word := "move(", number := some delta }
  | amend delta => { word := "amend(", number := some delta }
  | read => { word := "read" }
  | write => { word := "write" }
  | zero => { word := "zero" }
  | loop body => { word := "loop(", body := some body }
  | procedure id body => { word := "proc#", number := some id, body := some body }
  | register id => { word := "register(#", number := some id }
  | call => { word := "call" }

/-- Nodes are known by the parts of their texts. -/
theorem parts_injective : Function.Injective parts := by
  intro a b same
  cases a <;> cases b <;> simp_all [parts]

/-- What stands behind the word: the number, and the body between parentheses. If there is no
number, the parenthesis of the body belongs to the word. -/
def Parts.behind : Parts → List Char
  | ⟨_, none, none⟩ => []
  | ⟨_, some number, none⟩ => (Decimal.text number).toList ++ [')']
  | ⟨_, none, some body⟩ => spelling body ++ [')']
  | ⟨_, some number, some body⟩ => (Decimal.text number).toList ++ '(' :: (spelling body ++ [')'])

/-- The text of a node is its word and what follows it. -/
theorem toList_text (node : Node) :
    node.text.toList = node.parts.word.toList ++ node.parts.behind := by
  cases node with
  | sequence body | loop body | procedure id body =>
    rw [text, writeText, writeTexts_eq]
    simp [parts, Parts.behind, spelling]
  | _ => simp [text, writeText, parts, Parts.behind]

/-- The word of a text, and whether it has a number and a body. -/
def Parts.form (p : Parts) : String × Bool × Bool :=
  (p.word, p.number.isSome, p.body.isSome)

/-- The forms of texts. -/
def forms : List (String × Bool × Bool) :=
  [("(", false, true), ("move(", true, false), ("amend(", true, false), ("read", false, false),
    ("write", false, false), ("zero", false, false), ("loop(", false, true),
    ("proc#", true, true), ("register(#", true, false), ("call", false, false)]

/-- The text of every node has one of the forms. -/
theorem form_mem_forms (node : Node) : node.parts.form ∈ forms := by
  cases node <;> simp [parts, Parts.form, forms]

/-- No word is the beginning of another one. -/
theorem forms_apart : ∀ f ∈ forms, ∀ g ∈ forms, f.1.toList <+: g.1.toList → f = g := by
  decide

/-- No node begins with a closing parenthesis. -/
theorem forms_open : ∀ f ∈ forms, f.1.toList.head?.isSome ∧ f.1.toList.head? ≠ some ')' := by
  decide

variable {a b : Node} {x y : List Char}

/-- The front of a text tells the form of the node that stands there, and what comes behind its
word. -/
theorem form_eq_of_append (same : a.text.toList ++ x = b.text.toList ++ y) :
    a.parts.form = b.parts.form ∧ a.parts.behind ++ x = b.parts.behind ++ y := by
  rw [toList_text, toList_text, List.append_assoc, List.append_assoc] at same
  have first : a.parts.word.toList <+: b.parts.word.toList ++ (b.parts.behind ++ y) := ⟨_, same⟩
  have second : b.parts.word.toList <+: b.parts.word.toList ++ (b.parts.behind ++ y) := ⟨_, rfl⟩
  have form : a.parts.form = b.parts.form := by
    rcases List.prefix_or_prefix_of_prefix first second with within | within
    · exact forms_apart _ a.form_mem_forms _ b.form_mem_forms within
    · exact (forms_apart _ b.form_mem_forms _ a.form_mem_forms within).symm
  have word : a.parts.word = b.parts.word := congrArg Prod.fst form
  rw [word] at same
  exact ⟨form, List.append_cancel_left same⟩

/-- The text of a node never begins with a closing parenthesis. -/
theorem closing_ne_append (node : Node) : ')' :: x ≠ node.text.toList ++ y := by
  intro same
  obtain ⟨given, other⟩ := forms_open _ node.form_mem_forms
  obtain ⟨c, first⟩ := Option.isSome_iff_exists.1 given
  have head := congrArg List.head? same
  rw [toList_text, List.append_assoc, List.head?_append, show node.parts.word.toList.head? =
    some c from first] at head
  exact other (first.trans head.symm)

/-! ## Reading from the front -/

/-- What stands between the parentheses of a body tells its nodes, whatever comes behind. -/
def Told (nodes : List Node) : Prop :=
  ∀ others x y, spelling nodes ++ ')' :: x = spelling others ++ ')' :: y → nodes = others ∧ x = y

/-- What stands behind the word tells the parts, if it tells the body. -/
theorem Parts.eq_of_behind {p q : Parts} (told : ∀ body ∈ p.body, Told body)
    (form : p.form = q.form) (same : p.behind ++ x = q.behind ++ y) : p = q ∧ x = y := by
  obtain ⟨word, number, body⟩ := p
  obtain ⟨word', number', body'⟩ := q
  simp only [Parts.form, Prod.mk.injEq] at form
  obtain ⟨rfl, numbers, bodies⟩ := form
  -- A number or a body is there on both sides or on none.
  cases number <;> cases number' <;> cases numbers <;> cases body <;> cases body' <;>
    cases bodies <;>
    simp only [behind, List.append_assoc, List.cons_append, List.nil_append] at same
  case none.none.refl.none.none.refl => exact ⟨rfl, same⟩
  case none.none.refl.some.some.refl body body' =>
    obtain ⟨rfl, rest⟩ := told body rfl body' x y same
    exact ⟨rfl, rest⟩
  case some.some.refl.none.none.refl number number' =>
    obtain ⟨rfl, rest⟩ := Decimal.text_append_inj (by decide) (by decide) same
    exact ⟨rfl, (List.cons.inj rest).2⟩
  case some.some.refl.some.some.refl number number' body body' =>
    obtain ⟨rfl, inside⟩ := Decimal.text_append_inj (by decide) (by decide) same
    obtain ⟨rfl, rest⟩ := told body rfl body' x y (List.cons.inj inside).2
    exact ⟨rfl, rest⟩

/-- The text of a node tells the node, and where it ends, if it tells the body. -/
theorem eq_of_told (told : ∀ body ∈ a.parts.body, Told body)
    (same : a.text.toList ++ x = b.text.toList ++ y) : a = b ∧ x = y := by
  obtain ⟨form, behind⟩ := form_eq_of_append same
  obtain ⟨parts, rest⟩ := Parts.eq_of_behind told form behind
  exact ⟨parts_injective parts, rest⟩

/-- A body with a blank before each node is told as well. -/
theorem Told.spaced {nodes others : List Node} (told : Told nodes)
    (same : spaced nodes ++ ')' :: x = spaced others ++ ')' :: y) : nodes = others ∧ x = y := by
  cases nodes with
  | nil =>
    cases others with
    | nil => exact ⟨rfl, (List.cons.inj same).2⟩
    | cons other others => exact absurd (List.cons.inj same).1 (by decide)
  | cons node nodes =>
    cases others with
    | nil => exact absurd (List.cons.inj same).1 (by decide)
    | cons other others => exact told _ x y (List.cons.inj same).2

mutual

/-- **The text of a node tells the node**, and where it ends. -/
theorem eq_of_append (a b : Node) (x y : List Char)
    (same : a.text.toList ++ x = b.text.toList ++ y) : a = b ∧ x = y := by
  match a with
  | sequence body | loop body | procedure _ body =>
    refine eq_of_told ?_ same
    rintro _ ⟨⟩
    exact told_body body
  | move _ | amend _ | read | write | zero | register _ | call => exact eq_of_told nofun same

/-- Every body is told by what stands between its parentheses. -/
theorem told_body (nodes : List Node) : Told nodes := by
  intro others x y same
  match nodes, others with
  | [], [] => exact ⟨rfl, (List.cons.inj same).2⟩
  | [], other :: others =>
    rw [spelling_cons, List.append_assoc] at same
    exact absurd same (closing_ne_append other)
  | node :: nodes, [] =>
    rw [spelling_cons, List.append_assoc] at same
    exact absurd same.symm (closing_ne_append node)
  | node :: nodes, other :: others =>
    rw [spelling_cons, spelling_cons, List.append_assoc, List.append_assoc] at same
    obtain ⟨rfl, behind⟩ := eq_of_append node other _ _ same
    obtain ⟨rfl, rest⟩ := (told_body nodes).spaced behind
    exact ⟨rfl, rest⟩

end

end Node

/-! ## Programs -/

namespace Program

/-- The characters of the lines of procedures, each with a line end in front. -/
def lines (procedures : List Procedure) : List Char :=
  procedures.flatMap fun q => '\n' :: (Node.procedure q.id q.body).text.toList

/-- The text of a program is that of its main body and the lines of its procedures. -/
theorem toList_text (p : Program) :
    p.text.toList = (Node.sequence p.main).text.toList ++ lines p.procedures := by
  have lines (procedures : List Procedure) (out : String) :
      (procedures.foldl (fun out q => (Node.procedure q.id q.body).writeText (out ++ "\n"))
        out).toList = out.toList ++ lines procedures := by
    induction procedures generalizing out with
    | nil => exact (List.append_nil _).symm
    | cons q procedures ih =>
      rw [List.foldl_cons, ih, Node.writeText_eq, Program.lines, Program.lines, List.flatMap_cons]
      simp
  exact lines p.procedures _

/-- Lines tell the procedures. -/
theorem lines_injective : Function.Injective lines := by
  intro procedures others same
  induction procedures generalizing others with
  | nil =>
    cases others with
    | nil => rfl
    | cons other others => cases same
  | cons q procedures ih =>
    cases others with
    | nil => cases same
    | cons other others =>
      rw [lines, lines, List.flatMap_cons, List.flatMap_cons] at same
      obtain ⟨nodes, behind⟩ := Node.eq_of_append _ _ _ _ (List.cons.inj same).2
      obtain ⟨id, body⟩ := Node.procedure.inj nodes
      have head : q = other := by
        cases q
        cases other
        exact congr (congrArg Procedure.mk id) body
      rw [head, ih behind]

/-- **The text of a program tells the tree.** Two programs are printed alike exactly if they have
the same main body and the same procedures. -/
theorem text_eq_iff (p q : Program) :
    p.text = q.text ↔ p.main = q.main ∧ p.procedures = q.procedures := by
  constructor
  · intro same
    have chars := congrArg String.toList same
    rw [toList_text, toList_text] at chars
    obtain ⟨main, behind⟩ := Node.eq_of_append _ _ _ _ chars
    exact ⟨Node.sequence.inj main, lines_injective behind⟩
  · rintro ⟨main, procedures⟩
    rw [text, text, main, procedures]

/-- A sequence inside a loop is told from the body of the loop. -/
example :
    text { main := [.loop [.move 1]] } = "(loop(move(1)))" ∧
      text { main := [.loop [.sequence [.move 1]]] } = "(loop((move(1))))" := by
  decide +kernel

end Program

end TapeLang
