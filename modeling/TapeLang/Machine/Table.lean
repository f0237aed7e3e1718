/-
# The dispatch table

Procedures are called through keys: a running program binds the value of a cell to a procedure, and
calls what the value of a cell is bound to. A key is bound once; a second binding is refused.
Looking up a key always answers: a key that is not bound gives the handle of no procedure.
-/
import Std.Data.TreeMap
import TapeLang.Text.Decimal

namespace TapeLang

/-- A reference to a procedure by its number. -/
structure Handle where
  id : Int
deriving DecidableEq, Repr

namespace Handle

/-- The handle that stands for no procedure. -/
def missing : Handle := ⟨-1⟩

/-- How a handle is printed. -/
def text (h : Handle) : String :=
  if h = missing then "<none>" else "pb_" ++ Decimal.text h.id

end Handle

/-- The bindings of keys to procedures, in ascending order of the keys. -/
structure Table where
  bindings : Std.TreeMap Int32 Handle

namespace Table

/-- The table without bindings. -/
def empty : Table := ⟨.empty⟩

/-- The handle bound to a key. -/
def find? (t : Table) (key : Int32) : Option Handle :=
  t.bindings[key]?

/-- The handle bound to a key, or the handle of no procedure. -/
def lookup (t : Table) (key : Int32) : Handle :=
  (t.find? key).getD .missing

/-- A key that is bound already, and to what. -/
structure Collision where
  key : Int32
  bound : Handle
deriving DecidableEq, Repr

/-- How a collision is reported. -/
def Collision.message (c : Collision) : String :=
  "key already registered: " ++ Decimal.text c.key.toInt ++ " is bound to " ++ c.bound.text

/-- Binds a key that is not bound yet. -/
def register (t : Table) (key : Int32) (handle : Handle) : Except Collision Table :=
  match t.find? key with
  | some bound => .error ⟨key, bound⟩
  | none => .ok ⟨t.bindings.insert key handle⟩

/-- The bindings in ascending order of the keys. -/
def toList (t : Table) : List (Int32 × Handle) :=
  t.bindings.toList

/-- The bound keys in ascending order. -/
def keys (t : Table) : List Int32 :=
  t.bindings.keys

@[simp] theorem find?_empty (key : Int32) : empty.find? key = none := by
  simp [find?, empty]

/-- After a binding the key is bound to the handle, and all other keys are bound as before. -/
theorem find?_of_register {t u : Table} {key : Int32} {handle : Handle}
    (h : t.register key handle = .ok u) (k : Int32) :
    u.find? k = if k = key then some handle else t.find? k := by
  unfold register at h
  split at h
  · cases h
  · cases h
    simp only [find?, Std.TreeMap.getElem?_insert, Std.compare_eq_iff_eq]
    by_cases hk : key = k
    · simp [hk]
    · simp [hk, Ne.symm hk]

end Table

end TapeLang
