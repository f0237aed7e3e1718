/-
# Tokens

A source is a string of bytes. Eleven of the ASCII characters are operators; every other byte is
comment. The four amount operators `>`, `<`, `+` and `-` come in runs, and a run of one of them is a
single token with a count; a run of comment bytes is a single token as well. `tokenize` cuts a
source into these tokens, and the tokens tile the source: none of its bytes is left out.
-/
import TapeLang.Text.Decimal

namespace TapeLang

/-- What a token, or a single byte of the source, stands for. -/
inductive Token.Kind where
  | comment
  | forward
  | back
  | increment
  | decrement
  | read
  | write
  | loopOpen
  | loopClose
  | procOpen
  | procClose
  | call
deriving DecidableEq, Repr

namespace Token.Kind

/-- The kind of a single byte. -/
def ofByte (b : UInt8) : Kind :=
  match Char.ofUInt8 b with
  | '>' => forward
  | '<' => back
  | '+' => increment
  | '-' => decrement
  | ',' => read
  | '.' => write
  | '[' => loopOpen
  | ']' => loopClose
  | '(' => procOpen
  | ')' => procClose
  | ':' => call
  | _ => comment

/-- Amount operators carry a run-length count. -/
def isAmount : Kind → Bool
  | forward | back | increment | decrement => true
  | _ => false

/-- Kinds whose runs make one token: the amount operators and comment. -/
def runs (k : Kind) : Bool :=
  k.isAmount || k == comment

/-- The number of a kind. -/
def number : Kind → Nat
  | comment => 0
  | forward => 1
  | back => 2
  | increment => 3
  | decrement => 4
  | read => 5
  | write => 6
  | loopOpen => 7
  | loopClose => 8
  | procOpen => 9
  | procClose => 10
  | call => 11

/-- The kind of a number; a number that belongs to no operator is comment. -/
def ofNumber : Int → Kind
  | 1 => forward
  | 2 => back
  | 3 => increment
  | 4 => decrement
  | 5 => read
  | 6 => write
  | 7 => loopOpen
  | 8 => loopClose
  | 9 => procOpen
  | 10 => procClose
  | 11 => call
  | _ => comment

@[simp] theorem ofNumber_number (k : Kind) : ofNumber k.number = k := by
  cases k <;> rfl

/-- How a token of a kind is printed: amount operators with their count. -/
def text (count : Int) : Kind → String
  | forward => ">" ++ Decimal.text count
  | back => "<" ++ Decimal.text count
  | increment => "+" ++ Decimal.text count
  | decrement => "-" ++ Decimal.text count
  | read => ","
  | write => "."
  | loopOpen => "["
  | loopClose => "]"
  | procOpen => "("
  | procClose => ")"
  | call => ":"
  | comment => "<comment>"

end Token.Kind

/-- A token: its kind, where it begins, how many operators it counts and how many bytes it
covers. -/
structure Token where
  kind : Token.Kind
  offset : Nat
  count : Nat := 1
  length : Nat := 1
deriving DecidableEq, Repr

namespace Token

/-- How a token is printed. -/
def text (t : Token) : String :=
  t.kind.text t.count

/-- A token grown by one byte in front of it. -/
def grow (t : Token) (offset : Nat) : Token :=
  { t with
    offset := offset
    count := if t.kind.isAmount then t.count + 1 else t.count
    length := t.length + 1 }

/-- Puts the byte at an offset in front of the tokens of what follows it: it joins the first of them
when the two make a run, and is a token of its own otherwise. -/
def place (x : UInt8 × Nat) (tokens : List Token) : List Token :=
  let kind := Kind.ofByte x.1
  match tokens with
  | [] => [{ kind := kind, offset := x.2 }]
  | t :: rest =>
    if kind.runs && t.kind == kind then t.grow x.2 :: rest
    else { kind := kind, offset := x.2 } :: t :: rest

/-- The tokens of a source, from left to right. -/
def tokenize (source : List UInt8) : List Token :=
  source.zipIdx.foldr place []

@[simp] theorem tokenize_nil : tokenize [] = [] := rfl

end Token

end TapeLang
