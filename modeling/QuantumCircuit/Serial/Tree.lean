import QuantumCircuit.Identity

/-!
# Trees of plain data

The form in which values are written out and read back: texts, numbers,
identities, lists and records of fields. A number that is not finite has no
written form and becomes `null`.
-/

namespace QuantumCircuit.Serial

/-- Plain data. -/
inductive Tree where
  | null
  | bool (b : Bool)
  | int (n : Int)
  | float (x : Float)
  | text (s : String)
  | identity (i : Identity)
  | list (items : List Tree)
  | record (fields : List (String × Tree))

namespace Tree

/-- A record with one field: a variant with its payload. -/
def tagged (tag : String) (payload : Tree) : Tree := record [(tag, payload)]

/-- A number, if it is finite. -/
def ofFloat (x : Float) : Tree := if x.isFinite then float x else null

/-- The number. -/
def float? : Tree → Option Float
  | float x => some x
  | _ => none

/-- The text. -/
def text? : Tree → Option String
  | text s => some s
  | _ => none

/-- The whole number, if it lies in the range. -/
def intIn? (least greatest : Int) : Tree → Option Int
  | int n => if least ≤ n ∧ n ≤ greatest then some n else none
  | _ => none

/-- The identity. -/
def identity? : Tree → Option Identity
  | identity i => some i
  | _ => none

end Tree

end QuantumCircuit.Serial
