/-
# The discipline of emitted code

What the operand stack holds at a place of emitted code does not depend on how the machine came
there: code can be followed along its line with nothing but the height of the stack and whether
there is a dispatch table. `Shape.climbAll` does this. It also checks that the stack is never asked
for what it does not hold and never grows above three values, that the table is there when it is
used, and that code leaves its line, by a jump, a call or a return, only in the shape that belongs
to its unit, in which the stack is empty.

Emitted code passes, and its jumps lead to places of the same shape inside their unit, in front of
its last instruction. The code of nodes is a `Block`; a whole unit is a body in good order with the
instruction that leaves the unit behind it: `Program.inOrder`.
-/
import TapeLang.Proofs.Units

namespace TapeLang

/-! ## What instructions do to the stack -/

namespace Instruction

/-- The number of values that an instruction takes from the stack. -/
def pops : Instruction → Nat
  | storePointer | storeScratch | loadCell | write | jumpZero _ | lookup | invoke | returnValue => 1
  | storeCell | add | sub | register => 2
  | newTape _ | newTable | loadPointer | loadScratch | constant _ | read | loop _ | procedure _
  | leave => 0

/-- The number of values that an instruction leaves on the stack. -/
def pushes : Instruction → Nat
  | loadPointer | loadScratch | constant _ | procedure _ | read | loadCell | add | sub | lookup => 1
  | newTape _ | newTable | storePointer | storeScratch | storeCell | write | jumpZero _ | loop _
  | register | invoke | leave | returnValue => 0

/-- Whether an instruction uses the dispatch table. -/
def usesTable : Instruction → Bool
  | register | lookup | invoke => true
  | _ => false

end Instruction

/-- The height of the operand stack, and whether there is a dispatch table. -/
structure Shape where
  height : Nat
  table : Bool
deriving DecidableEq

namespace Shape

/-- The shape after an instruction. -/
def after (s : Shape) (i : Instruction) : Shape where
  height := s.height - i.pops + i.pushes
  table := s.table || i == .newTable

/-- Whether an instruction finds what it needs and, if it leaves the line, leaves the shape of its
unit. -/
def allows (home s : Shape) (i : Instruction) : Bool :=
  decide (i.pops ≤ s.height) && decide ((s.after i).height ≤ 3) && (!i.usesTable || s.table) &&
    (i.isStraight || s.after i == home)

@[simp] theorem after_stored (s : Shape) (i : Instruction) : s.after i.stored = s.after i := by
  cases i <;> rfl

@[simp] theorem allows_stored (home s : Shape) (i : Instruction) :
    home.allows s i.stored = home.allows s i := by
  cases i <;> rfl

/-- Follows an instruction. -/
def climb (home s : Shape) (i : Instruction) : Option Shape :=
  if home.allows s i then some (s.after i) else none

/-- Follows instructions one after another. -/
def climbAll (home : Shape) : Shape → List Instruction → Option Shape
  | s, [] => some s
  | s, i :: is => (home.climb s i).bind fun s => climbAll home s is

/-- Instructions side by side are followed one part after the other. -/
theorem climbAll_append (home s : Shape) (a b : List Instruction) :
    home.climbAll s (a ++ b) = (home.climbAll s a).bind fun s => home.climbAll s b := by
  induction a generalizing s with
  | nil => rfl
  | cons i a ih =>
    simp only [List.cons_append, climbAll]
    cases home.climb s i with
    | none => rfl
    | some s' => exact ih s'

/-- Instructions behind others are followed from the shape where these end. -/
theorem climbAll_append_of {home s t : Shape} {a : List Instruction}
    (h : home.climbAll s a = some t) (b : List Instruction) :
    home.climbAll s (a ++ b) = home.climbAll t b := by
  rw [climbAll_append, h, Option.bind_some]

/-- Code that can be followed to its end can be followed to any place in it. -/
theorem exists_of_climbAll {home s t : Shape} {before after : List Instruction} {i : Instruction}
    (h : home.climbAll s (before ++ i :: after) = some t) :
    ∃ here, home.climbAll s before = some here ∧ home.allows here i = true := by
  rw [climbAll_append] at h
  obtain ⟨here, reached, rest⟩ := Option.bind_eq_some_iff.1 h
  obtain ⟨next, climbed, -⟩ := Option.bind_eq_some_iff.1 rest
  refine ⟨here, reached, ?_⟩
  unfold climb at climbed
  split at climbed
  · assumption
  · cases climbed

/-- The stack never grows above three values. -/
theorem height_le_of_climbAll {home s t : Shape} {is : List Instruction} (low : s.height ≤ 3)
    (h : home.climbAll s is = some t) : t.height ≤ 3 := by
  induction is generalizing s with
  | nil =>
    cases h
    exact low
  | cons i is ih =>
    obtain ⟨next, climbed, rest⟩ := Option.bind_eq_some_iff.1 h
    refine ih ?_ rest
    unfold climb at climbed
    split at climbed
    · next allowed =>
      cases climbed
      simp only [allows, Bool.and_eq_true, decide_eq_true_eq] at allowed
      exact allowed.1.1.2
    · cases climbed

end Shape

/-! ## Where code leads -/

/-- A place of code at which the stack and the table have the shape of the unit. -/
def Shape.Lands (home s : Shape) (base : Nat) (is : List Instruction) (place : Nat) : Prop :=
  ∃ front back, is = front ++ back ∧ place = base + Instruction.span front ∧
    home.climbAll s front = some home

namespace Instruction

/-- What an instruction at a position leads to besides the next one is as wanted; and it does not
leave the unit. -/
def Leads (wanted : Nat → Prop) (position : Nat) : Instruction → Prop
  | jumpZero target => wanted target.toNat
  | loop distance => ∃ place, place + distance.toNat = position ∧ wanted place
  | leave | returnValue => False
  | _ => True

/-- What instructions lead to, of which the first stands at `base`. -/
def LeadAll (wanted : Nat → Prop) : Nat → List Instruction → Prop
  | _, [] => True
  | base, i :: is => i.Leads wanted base ∧ LeadAll wanted (base + i.size) is

/-- Whether an instruction goes on with the next one, if only after a call. -/
def stays : Instruction → Bool
  | jumpZero _ | loop _ | leave | returnValue => false
  | _ => true

variable {wanted wanted' : Nat → Prop} {base : Nat} {a b is : List Instruction}

/-- Instructions side by side lead to what each part leads to from its place. -/
theorem leadAll_append :
    LeadAll wanted base (a ++ b) ↔ LeadAll wanted base a ∧ LeadAll wanted (base + span a) b := by
  induction a generalizing base with
  | nil => simp [LeadAll]
  | cons i a ih => simp only [List.cons_append, LeadAll, ih, span_cons, and_assoc, Nat.add_assoc]

/-- An instruction that leads to what is wanted leads to anything wanted more widely. -/
theorem Leads.mono (h : ∀ place, wanted place → wanted' place) {i : Instruction}
    (leads : i.Leads wanted base) : i.Leads wanted' base := by
  cases i with
  | jumpZero target => exact h _ leads
  | loop distance =>
    obtain ⟨place, back, there⟩ := leads
    exact ⟨place, back, h place there⟩
  | _ => exact leads

/-- Instructions that lead to what is wanted lead to anything wanted more widely. -/
theorem LeadAll.mono (h : ∀ place, wanted place → wanted' place) (leads : LeadAll wanted base is) :
    LeadAll wanted' base is := by
  induction is generalizing base with
  | nil => trivial
  | cons i is ih => exact ⟨leads.1.mono h, ih leads.2⟩

/-- Instructions that go on with the next one lead nowhere else. -/
theorem leadAll_of_stays (h : is.all stays = true) : LeadAll wanted base is := by
  induction is generalizing base with
  | nil => trivial
  | cons i is ih =>
    rw [List.all_cons, Bool.and_eq_true] at h
    refine ⟨?_, ih h.2⟩
    cases i <;> first | trivial | cases h.1

end Instruction

/-- A place inside code is a place of any code around it. -/
theorem Shape.Lands.within {home s t : Shape} {base place : Nat} {pre is : List Instruction}
    (level : home.climbAll s pre = some t) (post : List Instruction)
    (h : home.Lands t (base + Instruction.span pre) is place) :
    home.Lands s base (pre ++ is ++ post) place := by
  obtain ⟨front, back, rfl, rfl, reached⟩ := h
  refine ⟨pre ++ front, back ++ post, by simp, by simp [Nat.add_assoc], ?_⟩
  rw [Shape.climbAll_append_of level, reached]

/-- Code that keeps the shape of its unit and leads only to places of this shape in it. -/
structure Shape.Block (home : Shape) (base : Nat) (is : List Instruction) : Prop where
  level : home.climbAll home is = some home
  leads : Instruction.LeadAll (home.Lands home base is) base is

namespace Shape.Block

variable {home : Shape} {base : Nat} {a b is inner : List Instruction}

theorem nil : home.Block base [] := ⟨rfl, trivial⟩

/-- Blocks side by side are a block. -/
theorem append (ha : home.Block base a) (hb : home.Block (base + Instruction.span a) b) :
    home.Block base (a ++ b) := by
  refine ⟨by rw [climbAll_append_of ha.level, hb.level], Instruction.leadAll_append.2 ⟨?_, ?_⟩⟩
  · refine ha.leads.mono fun place there => ?_
    have start : home.climbAll home [] = some home := rfl
    exact Lands.within start b there
  · refine hb.leads.mono fun place there => ?_
    have whole := Lands.within ha.level [] there
    rwa [List.append_nil] at whole

/-- Code that always goes on with the next instruction is a block if it keeps the shape. -/
theorem of_stays (level : home.climbAll home is = some home) (h : is.all Instruction.stays = true) :
    home.Block base is :=
  ⟨level, Instruction.leadAll_of_stays h⟩

/-- A loop around a block is a block, if its places fit the field of an operand. -/
theorem around (empty : home.height = 0) (h : home.Block (base + 7) inner)
    (fits : base + (7 + Instruction.span inner + 5) < 2 ^ 32) :
    home.Block base (Node.around base inner) := by
  obtain ⟨height, table⟩ := home
  subst empty
  have target : (base + 7 + Instruction.span inner + 5).toUInt32.toNat =
      base + Instruction.span (Node.around base inner) := by
    rw [Node.span_around]
    simp only [Nat.toUInt32_eq, UInt32.toNat_ofNat']
    omega
  have distance : (7 + Instruction.span inner).toUInt32.toNat = 7 + Instruction.span inner := by
    simp only [Nat.toUInt32_eq, UInt32.toNat_ofNat']
    omega
  have test (target : UInt32) : climbAll ⟨0, table⟩ ⟨0, table⟩
      [.loadPointer, .loadCell, .jumpZero target] = some ⟨0, table⟩ := by
    cases table <;> rfl
  have back (distance : UInt32) : climbAll ⟨0, table⟩ ⟨0, table⟩ [.loop distance] =
      some ⟨0, table⟩ := by
    cases table <;> rfl
  have level : climbAll ⟨0, table⟩ ⟨0, table⟩ (Node.around base inner) = some ⟨0, table⟩ := by
    rw [Node.around, List.append_assoc, climbAll_append_of (test _),
      climbAll_append_of h.level, back]
  refine ⟨level, ?_⟩
  -- The test leads behind the loop, and the end of the body back to the test.
  have exit : Lands ⟨0, table⟩ ⟨0, table⟩ base (Node.around base inner)
      (base + 7 + Instruction.span inner + 5).toUInt32.toNat := ⟨_, [], by simp, target, level⟩
  have again : Lands ⟨0, table⟩ ⟨0, table⟩ base (Node.around base inner) base :=
    ⟨[], _, rfl, rfl, rfl⟩
  have body : Instruction.LeadAll (Lands ⟨0, table⟩ ⟨0, table⟩ base (Node.around base inner))
      (base + 7) inner := h.leads.mono fun place there => Lands.within (test _) _ there
  refine Instruction.leadAll_append.2 ⟨Instruction.leadAll_append.2 ⟨?_, body⟩, ?_⟩
  · exact ⟨trivial, trivial, exit, trivial⟩
  · refine ⟨⟨base, ?_, again⟩, trivial⟩
    rw [distance, Instruction.span_append]
    simp [Instruction.size, Instruction.opcode, Opcode.widths]

end Shape.Block

/-! ## The code of nodes -/

namespace Node

/-- Whether a node itself uses the dispatch table. -/
def isDispatch : Node → Bool
  | register _ | call => true
  | _ => false

/-- Whether nodes use the dispatch table. -/
def dispatch : List Node → Bool
  | [] => false
  | .sequence body :: rest => dispatch body || dispatch rest
  | .loop body :: rest => dispatch body || dispatch rest
  | leaf :: rest => leaf.isDispatch || dispatch rest

/-- The code of a node that holds no others is a block, with a table if it uses one. -/
theorem block_leafCode {home : Shape} {leaf : Node} (empty : home.height = 0)
    (served : leaf.isDispatch = true → home.table = true) (base : Nat) :
    home.Block base leaf.leafCode.toList := by
  obtain ⟨height, table⟩ := home
  subst empty
  cases leaf with
  | move delta | amend delta =>
    refine .of_stays ?_ ?_
    · simp only [leafCode, change, amount]
      split <;> cases table <;> rfl
    · simp only [leafCode, change, amount]
      split <;> rfl
  | register id | call =>
    obtain rfl : table = true := served rfl
    exact .of_stays rfl rfl
  | _ => exact .of_stays (by cases table <;> rfl) rfl

/-- **The code of nodes is in good order**, when there is a table for those that use it. -/
theorem block_instructions {home : Shape} (empty : home.height = 0) (nodes : List Node) (base : Nat)
    (served : dispatch nodes = true → home.table = true)
    (fits : base + Instruction.span (instructions base nodes) < 2 ^ 32) :
    home.Block base (instructions base nodes) := by
  fun_induction dispatch nodes generalizing base with
  | case1 => exact .nil
  | case2 body rest ihBody ih =>
    rw [Bool.or_eq_true] at served
    rw [instructions_sequence] at fits ⊢
    rw [Instruction.span_append] at fits
    exact (ihBody base (fun h => served (.inl h)) (by omega)).append
      (ih _ (fun h => served (.inr h)) (by omega))
  | case3 body rest ihBody ih =>
    rw [Bool.or_eq_true] at served
    rw [instructions_loop] at fits ⊢
    rw [Instruction.span_append, span_around] at fits
    have inner := ihBody (base + 7) (fun h => served (.inl h)) (by omega)
    refine (inner.around empty (by omega)).append ?_
    rw [span_around]
    exact ih _ (fun h => served (.inr h)) (by omega)
  | case4 leaf rest noSequence noLoop ih =>
    rw [Bool.or_eq_true] at served
    rw [instructions_leaf noSequence noLoop] at fits ⊢
    rw [Instruction.span_append] at fits
    exact (block_leafCode empty (fun h => served (.inl h)) base).append
      (ih _ (fun h => served (.inr h)) (by omega))

end Node

/-! ## Units -/

/-- A unit in good order: a body that leads only to places in it, and an instruction that leaves the
unit. -/
structure Shape.InOrder (home s : Shape) (body : List Instruction) (last : Instruction) : Prop where
  level : home.climbAll s (body ++ [last]) = some home
  leads : Instruction.LeadAll (home.Lands s 0 body) 0 body

/-- A block between what comes before it and the end of the unit makes a unit in good order. -/
theorem Shape.Block.inOrder {home s : Shape} {pre is post : List Instruction} {last : Instruction}
    (block : home.Block (Instruction.span pre) is) (before : home.climbAll s pre = some home)
    (behind : home.climbAll home (post ++ [last]) = some home)
    (staysBefore : pre.all Instruction.stays = true)
    (staysBehind : post.all Instruction.stays = true) :
    home.InOrder s (pre ++ is ++ post) last := by
  constructor
  · rw [List.append_assoc, List.append_assoc, climbAll_append_of before,
      climbAll_append_of block.level, behind]
  · refine Instruction.leadAll_append.2 ⟨Instruction.leadAll_append.2 ⟨?_, ?_⟩, ?_⟩
    · exact Instruction.leadAll_of_stays staysBefore
    · rw [Nat.zero_add]
      refine block.leads.mono fun place there => Lands.within before post ?_
      rwa [Nat.zero_add]
    · exact Instruction.leadAll_of_stays staysBehind

namespace Program

/-- The shape in which a unit is entered. Procedures are entered by calls, for which there is a
table. -/
def entry : Option Nat → Shape
  | none => ⟨0, false⟩
  | some _ => ⟨0, true⟩

/-- The shape in which a unit may leave its line. -/
def home (p : Program) : Option Nat → Shape
  | none => ⟨0, p.dispatches⟩
  | some _ => ⟨0, true⟩

/-- The instruction that leaves a unit. -/
def last : Option Nat → Instruction
  | none => .returnValue
  | some _ => .leave

@[simp] theorem height_home (p : Program) (u : Option Nat) : (p.home u).height = 0 := by
  cases u <;> rfl

/-- A program that has a table if its main body uses one. Procedures are a reason to have one. -/
def Served (p : Program) : Prop :=
  Node.dispatch p.main = true → p.dispatches = true

/-- The code before the main body makes a table if the program uses one. -/
theorem climbAll_prologue (p : Program) :
    Shape.climbAll ⟨0, p.dispatches⟩ ⟨0, false⟩ p.prologue.toList = some ⟨0, p.dispatches⟩ := by
  unfold prologue
  cases p.dispatches <;> rfl

theorem stays_prologue (p : Program) : p.prologue.toList.all Instruction.stays = true := by
  unfold prologue
  cases p.dispatches <;> rfl

/-- The code behind the main body keeps its shape, the last instruction included. -/
theorem climbAll_epilogue (table : Bool) :
    Shape.climbAll ⟨0, table⟩ ⟨0, table⟩ epilogue.toList = some ⟨0, table⟩ := by
  cases table <;> rfl

/-- **Every unit of a program is in good order**, if the program has a table when it needs one. -/
theorem inOrder {p : Program} (served : p.Served) {u : Option Nat} {is : List Instruction}
    (found : p.unitCode u = some is) (fits : Instruction.span is < 2 ^ 32) :
    ∃ body, is = body ++ [last u] ∧ (p.home u).InOrder (entry u) body (last u) := by
  cases u with
  | none =>
    cases found
    rw [List.append_assoc, Instruction.span_append, Instruction.span_append] at fits
    have block : (p.home none).Block (Instruction.span p.prologue.toList)
        (Node.instructions (Instruction.span p.prologue.toList) p.main) :=
      Node.block_instructions rfl p.main _ served (by omega)
    refine ⟨p.prologue.toList ++ Node.instructions (Instruction.span p.prologue.toList) p.main ++
      [.loadPointer, .loadCell], by simp [epilogue, last], ?_⟩
    exact block.inOrder p.climbAll_prologue (climbAll_epilogue p.dispatches) p.stays_prologue rfl
  | some id =>
    obtain ⟨q, -, rfl⟩ := Option.map_eq_some_iff.1 found
    rw [Instruction.span_append] at fits
    have block : (p.home (some id)).Block 0 (Node.instructions 0 q.body) :=
      Node.block_instructions rfl q.body 0 (fun _ => rfl) (by omega)
    refine ⟨Node.instructions 0 q.body, rfl, ?_⟩
    have unit :
        (p.home (some id)).InOrder (entry (some id)) ([] ++ Node.instructions 0 q.body ++ [])
        (last (some id)) := block.inOrder rfl rfl rfl rfl
    rwa [List.nil_append, List.append_nil] at unit

end Program

end TapeLang
