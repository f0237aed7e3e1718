/-
# What leads to registrations and calls

Emitted code registers a procedure, and calls one, only at the end of the code of a node: the
instructions before have put the value of the cell under the pointer on the stack, and on top of it
the number of the procedure, or what the table has for that value. No jump, call or return comes
into the middle of such code, since the stack is empty wherever they lead. So a machine that comes
to the last instruction has gone through those before it, and holds what they left:
`Machine.Tracked` is this, of a machine in order, and goes on from step to step.

The numbers that a built program registers are those of its procedures and fit their field:
`Program.ready_of_build`.
-/
import TapeLang.Proofs.Rewriting
import TapeLang.Proofs.Safety

namespace TapeLang

/-! ## Bytes say which instructions they are -/

namespace Instruction

variable {is js before before' behind behind' : List Instruction}

@[simp] theorem size_stored (i : Instruction) : i.stored.size = i.size := by
  cases i <;> rfl

@[simp] theorem opcode_stored (i : Instruction) : i.stored.opcode = i.opcode := by
  cases i <;> rfl

/-- An instruction without an operand is known by its opcode. -/
theorem eq_of_opcode {i j : Instruction} (bare : j.opcode.widths = [])
    (same : i.opcode = j.opcode) : i = j := by
  cases j with
  | newTape | constant | jumpZero | loop | procedure => cases bare
  | _ => cases i <;> first | rfl | cases same

@[simp] theorem span_map_stored (is : List Instruction) : span (is.map stored) = span is := by
  induction is with
  | nil => rfl
  | cons i is ih => rw [List.map_cons, span_cons, span_cons, size_stored, ih]

/-- Instructions without a byte are none. -/
theorem eq_nil_of_span (h : span is = 0) : is = [] := by
  cases is with
  | nil => rfl
  | cons i is =>
    rw [span_cons, size] at h
    omega

/-- A place of a list of instructions is known by its position. -/
theorem append_inj_span (same : before ++ behind = before' ++ behind')
    (place : span before = span before') : before = before' ∧ behind = behind' := by
  rcases List.append_eq_append_iff.1 same with ⟨between, rfl, rfl⟩ | ⟨between, rfl, rfl⟩
  all_goals
    obtain rfl : between = [] := eq_nil_of_span (by
      rw [span_append] at place
      omega)
    simp

/-- The bytes of instructions say which these are, as they are read back. -/
theorem map_stored_of_bytes (h : is.flatMap encode = js.flatMap encode) :
    is.map stored = js.map stored := by
  induction is generalizing js with
  | nil =>
    cases js with
    | nil => rfl
    | cons j js => simp [encode] at h
  | cons i is ih =>
    cases js with
    | nil => simp [encode] at h
    | cons j js =>
      have opcodes : i.opcode = j.opcode := Machine.toByte_inj (List.cons.inj h).1
      have first := withOperandAt?_encode [] (is.flatMap encode) i
      have second := withOperandAt?_encode [] (js.flatMap encode) j
      rw [List.nil_append, ← List.flatMap_cons] at first second
      rw [h, opcodes, second] at first
      have same : i.stored = j.stored := (Option.some.inj first).symm
      have sizes : i.encode.length = j.encode.length := by
        rw [length_encode, length_encode, ← size_stored i, same, size_stored]
      rw [List.flatMap_cons, List.flatMap_cons] at h
      rw [List.map_cons, List.map_cons, same, ih (List.append_inj h sizes).2]

/-- The bytes before and behind a position say which instructions stand there. -/
theorem stored_of_bytes
    (bytes : (before ++ behind).flatMap encode = (before' ++ behind').flatMap encode)
    (place : span before = span before') :
    before.map stored = before'.map stored ∧ behind.map stored = behind'.map stored := by
  have same := map_stored_of_bytes bytes
  rw [List.map_append, List.map_append] at same
  exact append_inj_span same (by rw [span_map_stored, span_map_stored, place])

/-! ## Where registrations and calls stand -/

/-- What stands before an instruction: a registration and a call are the last instructions of the
code of their nodes, and no table is made. -/
def Follows (fine : Int → Prop) (before : List Instruction) : Instruction → Prop
  | register => ∃ id, fine id ∧ (Node.register id).leafCode.toList <:+ before ++ [register]
  | invoke => Node.call.leafCode.toList <:+ before ++ [invoke]
  | newTable => False
  | _ => True

/-- Instructions of which each one follows what it should. -/
def Led (fine : Int → Prop) (is : List Instruction) : Prop :=
  ∀ before i after, is = before ++ i :: after → i.Follows fine before

variable {fine : Int → Prop} {i : Instruction}

/-- An instruction that follows others follows them behind anything. -/
theorem Follows.within (h : i.Follows fine before) (front : List Instruction) :
    i.Follows fine (front ++ before) := by
  cases i with
  | register =>
    obtain ⟨id, ok, ends⟩ := h
    refine ⟨id, ok, ends.trans ?_⟩
    rw [List.append_assoc]
    exact List.suffix_append front _
  | invoke =>
    refine List.IsSuffix.trans h ?_
    rw [List.append_assoc]
    exact List.suffix_append front _
  | _ => exact h

/-- Instructions side by side follow what they should if those of each part do. -/
theorem Led.append (h : Led fine is) (h' : Led fine js) : Led fine (is ++ js) := by
  intro before i after place
  rcases List.append_eq_append_iff.1 place with ⟨front, rfl, rest⟩ | ⟨back, rfl, rest⟩
  · exact (h' front i after rest).within is
  · cases back with
    | nil => simpa using (h' [] i after rest.symm).within before
    | cons j back =>
      obtain ⟨rfl, rfl⟩ := List.cons.inj rest
      exact h before i back rfl

/-- Instructions that may follow anything. -/
theorem led_of_forall (h : ∀ i ∈ is, ∀ before, i.Follows fine before) : Led fine is := by
  rintro before i after rfl
  exact h i (by simp) before

/-- An instruction that follows what it should can be added at the end. -/
theorem Led.concat (h : Led fine is) (last : i.Follows fine is) : Led fine (is ++ [i]) := by
  intro before j after place
  rcases List.eq_nil_or_concat after with rfl | ⟨after, k, rfl⟩
  · obtain ⟨rfl, same⟩ := List.append_inj' place rfl
    obtain ⟨rfl, -⟩ := List.cons.inj same
    exact last
  · rw [List.concat_eq_append, ← List.cons_append, ← List.append_assoc] at place
    obtain ⟨rfl, -⟩ := List.append_inj' place rfl
    exact h before j after rfl

/-- One other instruction between such instructions. -/
theorem Led.around (h : Led fine is) (h' : Led fine js) {x : Instruction}
    (place : is ++ x :: js = before ++ i :: behind) :
    i.Follows fine before ∨ i = x ∧ before = is := by
  rcases List.append_eq_append_iff.1 place with ⟨front, rfl, rest⟩ | ⟨back, rfl, rest⟩
  · cases front with
    | nil => exact .inr ⟨(List.cons.inj rest).1.symm, List.append_nil _⟩
    | cons j front =>
      have inside := (h' front i behind (List.cons.inj rest).2).within (is ++ [j])
      rw [List.append_assoc] at inside
      exact .inl inside
  · cases back with
    | nil => exact .inr ⟨(List.cons.inj rest).1, (List.append_nil _).symm⟩
    | cons j back =>
      obtain ⟨rfl, -⟩ := List.cons.inj rest
      exact .inl (h before i back rfl)

end Instruction

namespace Node

/-- The numbers that nodes register. -/
def registered : List Node → List Int
  | [] => []
  | .sequence body :: rest => registered body ++ registered rest
  | .loop body :: rest => registered body ++ registered rest
  | .register id :: rest => id :: registered rest
  | _ :: rest => registered rest

theorem leafCode_register (id : Int) :
    (register id).leafCode.toList = [.loadPointer, .loadCell, handle id] ++ [.register] := rfl

theorem leafCode_call :
    call.leafCode.toList = [.loadPointer, .loadCell, .lookup] ++ [.invoke] := rfl

/-- In the code of a node, registrations and calls follow what they should. -/
theorem led_leafCode {fine : Int → Prop} {leaf : Node} (h : ∀ id, leaf = register id → fine id) :
    Instruction.Led fine leaf.leafCode.toList := by
  cases leaf with
  | register id =>
    have load : Instruction.Led fine [.loadPointer, .loadCell, handle id] :=
      Instruction.led_of_forall (by simp [Instruction.Follows, handle])
    exact load.concat ⟨id, h id rfl, List.suffix_rfl⟩
  | call =>
    have load : Instruction.Led fine [.loadPointer, .loadCell, .lookup] :=
      Instruction.led_of_forall (by simp [Instruction.Follows])
    exact load.concat List.suffix_rfl
  | move delta | amend delta =>
    refine Instruction.led_of_forall ?_
    simp only [leafCode, change, amount]
    split <;> simp [Instruction.Follows]
  | _ => exact Instruction.led_of_forall (by simp [leafCode, Instruction.Follows])

/-- The code of nodes holds registrations and calls only at the ends of the codes of their nodes. -/
theorem led_instructions {fine : Int → Prop} (nodes : List Node) (base : Nat)
    (h : ∀ id ∈ registered nodes, fine id) : Instruction.Led fine (instructions base nodes) := by
  fun_induction registered nodes generalizing base with
  | case1 => exact Instruction.led_of_forall nofun
  | case2 body rest ihBody ih =>
    rw [List.forall_mem_append] at h
    rw [instructions_sequence]
    exact (ihBody base h.1).append (ih _ h.2)
  | case3 body rest ihBody ih =>
    rw [List.forall_mem_append] at h
    rw [instructions_loop, around]
    have test (target : UInt32) :
        Instruction.Led fine [.loadPointer, .loadCell, .jumpZero target] :=
      Instruction.led_of_forall (by simp [Instruction.Follows])
    have back (distance : UInt32) : Instruction.Led fine [.loop distance] :=
      Instruction.led_of_forall (by simp [Instruction.Follows])
    exact (((test _).append (ihBody _ h.1)).append (back _)).append (ih _ h.2)
  | case4 id rest ih =>
    rw [List.forall_mem_cons] at h
    rw [instructions_leaf (by simp) (by simp)]
    refine (led_leafCode ?_).append (ih _ h.2)
    rintro id ⟨⟩
    exact h.1
  | case5 leaf rest noSequence noLoop noRegister ih =>
    rw [instructions_leaf noSequence noLoop]
    refine (led_leafCode ?_).append (ih _ h)
    intro id same
    exact absurd same (noRegister id)

end Node

/-! ## The numbers of procedures -/

theorem Node.registered_of_run {count : Int} {kind : Token.Kind} {node : Node} {rest : List Node}
    (h : ofRun? count kind = some node) : registered (node :: rest) = registered rest := by
  cases kind <;> cases h <;> simp [registered]

theorem Node.registered_of_operator {kind : Token.Kind} {node : Node} {rest : List Node}
    (h : ofOperator? kind = some node) : registered (node :: rest) = registered rest := by
  cases kind <;> cases h <;> simp [registered]

/-- Nodes that register only numbers of a range. -/
def Node.RegisterIn (low high : Nat) (nodes : List Node) : Prop :=
  ∀ id ∈ registered nodes, (low : Int) ≤ id ∧ id < high

/-- Numbers of a range are numbers of any larger one. -/
theorem Node.RegisterIn.mono {low high low' high' : Nat} {nodes : List Node}
    (h : RegisterIn low high nodes) (below : low' ≤ low) (above : high ≤ high') :
    RegisterIn low' high' nodes := by
  intro id hid
  have := h id hid
  omega

/-- What is read registers only procedures that are read with it. -/
theorem Reads.registerIn {first : Nat} {source : List Located} {nodes : List Node}
    {bodies : List (List Node)} (h : Reads first source nodes bodies) :
    ∀ body ∈ nodes :: bodies, Node.RegisterIn first (first + bodies.length) body := by
  induction h with
  | nil => simp [Node.RegisterIn, Node.registered]
  | comment _ _ ih => exact ih
  | run hx _ ih =>
    rw [List.forall_mem_cons, Node.RegisterIn, Node.registered_of_run hx]
    exact List.forall_mem_cons.1 ih
  | operator hx _ ih =>
    rw [List.forall_mem_cons, Node.RegisterIn, Node.registered_of_operator hx]
    exact List.forall_mem_cons.1 ih
  | zero _ _ _ _ ih =>
    rw [List.forall_mem_cons, Node.RegisterIn, Node.registered]
    · exact List.forall_mem_cons.1 ih
    all_goals simp
  | @loop first _ _ _ _ _ _ defined bodies _ _ _ _ _ ihBody ih =>
    -- The procedures of the body have the lower numbers, those behind the loop the higher ones.
    have inside body hb := (ihBody body hb).mono (Nat.le_refl _)
      (show _ ≤ first + (defined ++ bodies).length by simp)
    have behind body hb := (ih body hb).mono (show first ≤ _ by omega)
      (show _ ≤ first + (defined ++ bodies).length by simp [Nat.add_assoc])
    rw [List.forall_mem_cons] at inside behind
    rw [List.forall_mem_cons, List.forall_mem_append]
    refine ⟨?_, inside.2, behind.2⟩
    rw [Node.RegisterIn, Node.registered]
    exact List.forall_mem_append.2 ⟨inside.1, behind.1⟩
  | @procedure first _ _ _ _ inner _ defined bodies _ _ _ _ ihBody ih =>
    have inside body hb := (ihBody body hb).mono (show first ≤ _ by omega)
      (show _ ≤ first + (inner :: (defined ++ bodies)).length by
        simp only [List.length_cons, List.length_append]
        omega)
    have behind body hb := (ih body hb).mono (show first ≤ _ by omega)
      (show _ ≤ first + (inner :: (defined ++ bodies)).length by
        simp only [List.length_cons, List.length_append]
        omega)
    rw [List.forall_mem_cons] at inside behind
    rw [List.forall_mem_cons, List.forall_mem_cons, List.forall_mem_append]
    refine ⟨?_, inside.1, inside.2, behind.2⟩
    rw [Node.RegisterIn, Node.registered]
    refine List.forall_mem_cons.2 ⟨⟨Int.le_refl _, ?_⟩, behind.1⟩
    simp only [List.length_cons]
    omega

/-- Numbers that do not fit their field are refused. -/
theorem Node.registered_le_of_check {nodes : List Node} (h : checkAll .standard nodes = .ok ()) :
    ∀ id ∈ registered nodes, id ≤ lastProcedure := by
  fun_induction registered nodes with
  | case1 => simp
  | case2 body rest ihBody ih =>
    rw [checkAll_cons_eq_ok_iff, check] at h
    exact List.forall_mem_append.2 ⟨ihBody h.1, ih h.2⟩
  | case3 body rest ihBody ih =>
    rw [checkAll_cons_eq_ok_iff, check_loop] at h
    exact List.forall_mem_append.2 ⟨ihBody h.1, ih h.2⟩
  | case4 id rest ih =>
    rw [checkAll_cons_eq_ok_iff, check] at h
    refine List.forall_mem_cons.2 ⟨?_, ih h.2⟩
    by_contra large
    rw [if_pos (by omega)] at h
    cases h.1
  | case5 leaf rest _ _ _ ih =>
    rw [checkAll_cons_eq_ok_iff] at h
    exact ih h.2

namespace Program

/-- A number of a procedure of a program that fits its field. -/
structure Knows (p : Program) (id : Int) : Prop where
  low : 0 ≤ id
  defined : id < p.procedures.length
  fits : id ≤ Node.lastProcedure

/-- Procedures that have code have bodies that do. -/
theorem checkAll_of_checkProcedures {next : Int} {procedures : List Procedure}
    (h : checkProcedures .standard next procedures = .ok ()) :
    ∀ q ∈ procedures, Node.checkAll .standard q.body = .ok () := by
  induction procedures generalizing next with
  | nil => nofun
  | cons q rest ih =>
    obtain ⟨-, body, later⟩ := checkProcedures_cons_eq_ok_iff.1 h
    exact List.forall_mem_cons.2 ⟨body, ih later⟩

/-- Bytecode of a program that registers its own procedures and has a table when it needs one, in
units that are not too long. -/
structure Ready (p : Program) (code : Bytecode) : Prop where
  emitted : p.Emitted code
  short : code.Short
  served : p.Served
  main : ∀ id ∈ Node.registered p.main, p.Knows id
  procedures : ∀ q ∈ p.procedures, ∀ id ∈ Node.registered q.body, p.Knows id

/-- Built bytecode comes from a program that is ready for it. -/
theorem ready_of_build {source : List UInt8} {code : Bytecode} (built : build source = .ok code)
    (short : code.Short) : ∃ p : Program, p.Ready code := by
  obtain ⟨p, read, compiled⟩ := exists_of_build built
  obtain ⟨checkedMain, checkedProcedures⟩ := (exists_compile_iff p).1 ⟨code, compiled⟩
  have served := served_of_parse read
  have emitted := emitted_of_compile compiled
  obtain ⟨main, bodies, reads, rfl⟩ := parse_eq_ok_iff.1 read
  have count : (numbered bodies.toArray).length = bodies.length := by simp [numbered]
  have own := List.forall_mem_cons.1 reads.registerIn
  refine ⟨_, emitted, short, served, ?_, ?_⟩
  · intro id hid
    have range := own.1 id hid
    refine ⟨by omega, ?_, Node.registered_le_of_check checkedMain id hid⟩
    rw [count]
    omega
  · intro q hq id hid
    have body : q.body ∈ bodies := by
      obtain ⟨⟨body, n⟩, member, rfl⟩ := List.mem_map.1 hq
      simpa using List.fst_mem_of_mem_zipIdx member
    have range := own.2 _ body id hid
    have checked := checkAll_of_checkProcedures checkedProcedures q hq
    refine ⟨by omega, ?_, Node.registered_le_of_check checked id hid⟩
    rw [count]
    omega

/-- What stands before an instruction of a unit, which may also be the one that makes the table, at
the end of what comes before the main body. -/
theorem Ready.follows {p : Program} {code : Bytecode} (ready : p.Ready code) {u : Option Nat}
    {before after : List Instruction} {i : Instruction}
    (found : p.unitCode u = some (before ++ i :: after)) :
    i.Follows p.Knows before ∨
      u = none ∧ i = .newTable ∧ before = [.newTape tapeSize, .constant 0, .storePointer] := by
  cases u with
  | some id =>
    obtain ⟨q, at_id, same⟩ := Option.map_eq_some_iff.1 found
    have body := Node.led_instructions q.body 0 (ready.procedures q (List.mem_of_getElem? at_id))
    exact .inl (body.concat (i := .leave) trivial before i after same)
  | none =>
    have start : Instruction.Led p.Knows [.newTape tapeSize, .constant 0, .storePointer] :=
      Instruction.led_of_forall (by simp [Instruction.Follows])
    have close : Instruction.Led p.Knows epilogue.toList :=
      Instruction.led_of_forall (by simp [epilogue, Instruction.Follows])
    have rest :=
      (Node.led_instructions p.main (Instruction.span p.prologue.toList) ready.main).append close
    have same : p.prologue.toList ++
        (Node.instructions (Instruction.span p.prologue.toList) p.main ++ epilogue.toList) =
        before ++ i :: after := by
      rw [← List.append_assoc]
      exact Option.some.inj found
    generalize Node.instructions (Instruction.span p.prologue.toList) p.main ++
      epilogue.toList = code
      at rest same
    simp only [prologue] at same
    split at same
    · exact (start.around rest same).imp_right fun made => ⟨rfl, made⟩
    · exact .inl (start.append rest before i after same)

end Program

/-! ## What a machine holds -/

/-- The shape behind instructions is what the last of them makes of some shape. -/
theorem Shape.exists_after_of_climbAll {home s t : Shape} {is : List Instruction} {i : Instruction}
    (h : home.climbAll s (is ++ [i]) = some t) : ∃ here : Shape, t = here.after i := by
  rw [climbAll_append] at h
  obtain ⟨here, -, rest⟩ := Option.bind_eq_some_iff.1 h
  obtain ⟨next, climbed, same⟩ := Option.bind_eq_some_iff.1 rest
  cases same
  unfold climb at climbed
  split at climbed
  · cases climbed
    exact ⟨here, rfl⟩
  · cases climbed

/-- The value of the cell under the pointer, if the pointer is on the tape. -/
def Machine.current? (m : Machine) : Option Int32 :=
  (m.cell? m.pointer).bind fun i => m.tape[i]?

/-- What a machine holds after it went through instructions, the latest of which stands first. -/
structure Machine.Recalls (m : Machine) (passed : List Instruction) : Prop where
  pointer : ∀ rest, passed = .loadPointer :: rest → ∃ stack, m.stack = m.pointer :: stack
  cell : ∀ rest, passed = .loadCell :: .loadPointer :: rest →
    ∃ key stack, m.current? = some key ∧ m.stack = key :: stack
  handle : ∀ n rest, passed = .procedure n :: .loadCell :: .loadPointer :: rest →
    ∃ key stack, m.current? = some key ∧ m.stack = Int32.ofNat n.toNat :: key :: stack
  found : ∀ rest, passed = .lookup :: .loadCell :: .loadPointer :: rest →
    ∃ key table stack, m.current? = some key ∧ m.table = some table ∧ m.lastKey = key ∧
      m.stack = Int32.ofInt (table.lookup key).id :: stack

namespace Machine

variable {σ : Type} {m m' : Machine} {host host' : σ} {passed : List Instruction}

/-- A push that goes on leaves the value on top of the stack. -/
theorem eq_of_push {value : Int32} (h : m.push value host = .next m' host') :
    m' = { m with stack := value :: m.stack } := by
  unfold push at h
  split at h
  · cases h
    rfl
  · cases h

/-- Reading a cell that goes on leaves the value of this cell on top of the stack. -/
theorem exists_of_loadCell {index : Int32} (h : m.loadCell index host = .next m' host') :
    ∃ i value, m.cell? index = some i ∧ m.tape[i]? = some value ∧
      m' = { m with stack := value :: m.stack } := by
  unfold loadCell at h
  split at h
  · next i found => exact ⟨i, _, found, by simp, eq_of_push h⟩
  · cases h

/-- Looking a key up that goes on leaves the number bound to it on top of the stack. -/
theorem exists_of_find {key : Int32} (h : m.find key host = .next m' host') :
    ∃ table, m.table = some table ∧
      m' = { m with lastKey := key, stack := Int32.ofInt (table.lookup key).id :: m.stack } := by
  unfold find at h
  split at h
  · cases h
  · next table found => exact ⟨table, found, eq_of_push h⟩

variable [Host σ] {code : Bytecode} {i : Instruction}

/-- An instruction adds to what the machine holds. -/
theorem Recalls.execute (h : m.Recalls passed) (next : m.execute code host i = .next m' host') :
    m'.Recalls (i :: passed) := by
  refine ⟨?_, ?_, ?_, ?_⟩
  · rintro rest ⟨⟩
    cases eq_of_push next
    exact ⟨_, rfl⟩
  · rintro rest ⟨⟩
    obtain ⟨stack, top⟩ := h.pointer rest rfl
    simp only [Machine.execute, top] at next
    obtain ⟨j, key, found, current, rfl⟩ := exists_of_loadCell next
    exact ⟨key, _, Option.bind_eq_some_iff.2 ⟨j, found, current⟩, rfl⟩
  · rintro n rest ⟨⟩
    obtain ⟨key, stack, current, top⟩ := h.cell rest rfl
    cases eq_of_push next
    exact ⟨key, stack, current, congrArg _ top⟩
  · rintro rest ⟨⟩
    obtain ⟨key, stack, current, top⟩ := h.cell rest rfl
    simp only [Machine.execute, top] at next
    obtain ⟨table, found, rfl⟩ := exists_of_find next
    exact ⟨key, table, stack, current, found, rfl, rfl⟩

omit [Host σ] in
/-- Nothing is held behind an instruction that leaves nothing on the stack. -/
theorem recalls_of_pushes (none : i.pushes = 0) (m : Machine) (passed : List Instruction) :
    m.Recalls (i :: passed) := by
  refine ⟨?_, ?_, ?_, ?_⟩
  · rintro rest ⟨⟩
    cases none
  · rintro rest ⟨⟩
    cases none
  · rintro n rest ⟨⟩
    cases none
  · rintro rest ⟨⟩
    cases none

omit [Host σ] in
/-- Nothing is held where the code leaves the stack empty. -/
theorem recalls_of_climbAll {home s t : Shape} {before : List Instruction}
    (reached : home.climbAll s before = some t) (empty : t.height = 0) (m : Machine) :
    m.Recalls (before.map Instruction.stored).reverse := by
  rcases List.eq_nil_or_concat before with rfl | ⟨front, i, rfl⟩
  · exact ⟨nofun, nofun, nofun, nofun⟩
  · rw [List.concat_eq_append] at reached ⊢
    obtain ⟨here, rfl⟩ := Shape.exists_after_of_climbAll reached
    have none : i.stored.pushes = 0 := by
      rw [show i.stored.pushes = i.pushes by cases i <;> rfl]
      simp only [Shape.after] at empty
      omega
    rw [List.map_append, List.reverse_append]
    exact recalls_of_pushes none m _

omit [Host σ] in
/-- What a machine recalls does not depend on where it stands. -/
theorem Recalls.stand (h : m.Recalls passed) (unit : Option Nat) (position : Nat) :
    (m.stand unit position).Recalls passed :=
  ⟨h.pointer, h.cell, h.handle, h.found⟩

/-- An instruction that leaves its line only takes values from the stack. -/
theorem stack_of_turn (turns : i.isStraight = false)
    (next : m.execute code host i = .next m' host') : m'.stack = m.stack.drop i.pops := by
  cases i with
  | jumpZero =>
    simp only [execute] at next
    split at next
    · next top =>
      cases next
      rw [top]
      split <;> rfl
    · cases next
  | loop =>
    cases next
    rfl
  | invoke =>
    simp only [execute, invoke, call] at next
    split at next
    · next top =>
      rw [top]
      split at next
      · split at next
        · cases next
          rfl
        · cases next
      · split at next <;> cases next
    · cases next
  | leave =>
    simp only [execute] at next
    split at next
    · cases next
      rfl
    · cases next
  | returnValue =>
    simp only [execute] at next
    split at next <;> cases next
  | _ => cases turns

/-- A machine in order that holds what the instructions before its place leave. -/
structure Tracked (p : Program) (m : Machine) : Prop where
  order : m.InOrder p
  recalls : ∀ before behind, p.unitCode m.frame.unit = some (before ++ behind) →
    m.frame.ip = (Instruction.span before : Int) - 1 →
      m.Recalls (before.map Instruction.stored).reverse

variable {p : Program}

/-- A tracked machine stands at an instruction and recalls those before it. -/
theorem Tracked.place (ready : p.Ready code) (h : m.Tracked p) :
    ∃ before i after body, m.Place p code before i after body ∧
      m.Recalls (before.map Instruction.stored).reverse := by
  obtain ⟨before, i, after, body, here⟩ := h.order.place ready.emitted ready.short ready.served
  exact ⟨before, i, after, body, here, h.recalls before (i :: after) here.unit here.ip⟩

/-- One step leaves the machine with what the instructions before its new place leave. -/
theorem Tracked.step (ready : p.Ready code) (h : m.Tracked p)
    (next : m.step code host = .next m' host') : m'.Tracked p := by
  have proper := step_inOrder ready.emitted ready.short ready.served h.order host
  rw [next] at proper
  refine ⟨proper, fun front behind unit ip => ?_⟩
  obtain ⟨before, i, after, body, here, recalls⟩ := h.place ready
  cases turns : i.isStraight with
  | true =>
    have step := step_straight here.has turns m host
    rw [← here.eq_stand, next] at step
    cases executed : m.execute code host i.stored with
    | next m₁ host₁ =>
      rw [executed] at step
      cases step
      have same : (before ++ [i]) ++ after = front ++ behind := by
        simpa using here.unit.symm.trans unit
      obtain ⟨rfl, -⟩ := Instruction.append_inj_span same (by
        have moved : ((Instruction.span before + i.size : Nat) : Int) - 1 = _ := ip
        simp only [Instruction.span_append, Instruction.span_cons, Instruction.span_nil]
        omega)
      simpa using (recalls.execute executed).stand m.frame.unit _
    | halt _ _ _ | fault _ _ _ | broken _ _ =>
      rw [executed] at step
      cases step
  | false =>
    -- Wherever the machine comes to, its stack is empty, and so the code says nothing of it.
    have step := step_eq_execute here.has m host
    rw [← here.eq_stand, next] at step
    have stack : m'.stack = [] := by
      have height := congrArg Shape.height (here.after_eq_home turns)
      rw [p.height_home] at height
      rw [stack_of_turn (by rw [Instruction.isStraight_stored, turns]) step.symm]
      refine List.drop_eq_nil_of_le ?_
      rw [show i.stored.pops = i.pops by cases i <;> rfl]
      simp only [Shape.after, shape] at height
      show m.stack.length ≤ _
      omega
    obtain ⟨before', j, after', unit', ip', reached⟩ := proper.stands
    obtain ⟨rfl, -⟩ :=
      Instruction.append_inj_span (Option.some.inj (unit.symm.trans unit')) (by omega)
    exact recalls_of_climbAll reached (by simp [shape, stack]) m'

/-- A machine that is tracked still is after any number of steps. -/
theorem Tracked.of_reaches (ready : p.Ready code) {n : Nat} {c d : Machine × σ}
    (reached : Reaches code n c d) (h : c.1.Tracked p) : d.1.Tracked p := by
  induction reached with
  | refl => exact h
  | head step _ ih => exact ih (h.step ready step)

/-- A new machine holds nothing. -/
theorem tracked_new (p : Program) : ({} : Machine).Tracked p := by
  refine ⟨inOrder_new p, fun before behind _ ip => ?_⟩
  obtain rfl : before = [] := Instruction.eq_nil_of_span (by
    have start : (-1 : Int) = _ := ip
    omega)
  exact ⟨nofun, nofun, nofun, nofun⟩

end Machine

end TapeLang
