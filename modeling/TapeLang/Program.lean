/-
# Programs

A program is a tree: the nodes of its main body and the procedures it defines. Operators that repeat
are one node with an amount. Where a procedure is defined, the tree keeps a node that registers it
under the value of the current cell; the body stands apart, under a number that follows the order of
the source.
-/
import TapeLang.Text.Decimal

namespace TapeLang

/-- An element of the program tree. -/
inductive Node where
  /-- Nodes one after another. -/
  | sequence (body : List Node)
  /-- Displaces the pointer. -/
  | move (delta : Int)
  /-- Adds to the cell under the pointer. -/
  | amend (delta : Int)
  /-- Reads a character into the cell under the pointer. -/
  | read
  /-- Writes the cell under the pointer as a character. -/
  | write
  /-- Sets the cell under the pointer to zero. -/
  | zero
  /-- Repeats its body while the cell under the pointer is not zero. -/
  | loop (body : List Node)
  /-- A procedure with its number, standing inside the tree. -/
  | procedure (id : Int) (body : List Node)
  /-- Registers a procedure under the value of the current cell. -/
  | register (id : Int)
  /-- Calls the procedure registered under the value of the current cell. -/
  | call
deriving Repr

namespace Node

mutual

/-- A text followed by the text of a node. -/
def writeText (out : String) : Node → String
  | sequence body => writeTexts (out ++ "(") body ++ ")"
  | move delta => out ++ "move(" ++ Decimal.text delta ++ ")"
  | amend delta => out ++ "amend(" ++ Decimal.text delta ++ ")"
  | read => out ++ "read"
  | write => out ++ "write"
  | zero => out ++ "zero"
  | loop body => writeTexts (out ++ "loop(") body ++ ")"
  | procedure id body => writeTexts (out ++ "proc#" ++ Decimal.text id ++ "(") body ++ ")"
  | register id => out ++ "register(#" ++ Decimal.text id ++ ")"
  | call => out ++ "call"

/-- A text followed by the texts of nodes, with one space between two of them. -/
def writeTexts (out : String) : List Node → String
  | [] => out
  | [node] => writeText out node
  | node :: next :: rest => writeTexts (writeText out node ++ " ") (next :: rest)

end

/-- How a node is printed. -/
def text (node : Node) : String :=
  node.writeText ""

end Node

/-- A procedure: its number and its body. -/
structure Procedure where
  id : Int
  body : List Node
deriving Repr

/-- A program: its main body, its procedures in the order of their numbers, and the number of its
call operators. -/
structure Program where
  main : List Node
  procedures : List Procedure := []
  calls : Int := 0
deriving Repr

namespace Program

/-- Whether running the program needs a dispatch table. -/
def dispatches (p : Program) : Bool :=
  0 < p.calls || !p.procedures.isEmpty

/-- How a program is printed: the main body, then every procedure on a line of its own. -/
def text (p : Program) : String :=
  p.procedures.foldl (fun out q => (Node.procedure q.id q.body).writeText (out ++ "\n"))
    (Node.sequence p.main).text

end Program

end TapeLang
