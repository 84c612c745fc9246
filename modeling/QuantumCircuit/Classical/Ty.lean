import QuantumCircuit.Identity
import QuantumCircuit.Number.Text

/-!
# Real-time classical types, values and identifiers

Values that a circuit computes with while it runs are Booleans, unsigned
integers of a stated width, floats and durations. A variable holds such a value;
a stretch is a duration that a scheduler fixes later. Both have identity.
-/

namespace QuantumCircuit

/-- The type of a real-time value. -/
inductive Ty where
  | bool
  /-- An unsigned integer of the given width in bits. -/
  | uint (width : UInt32)
  | float
  | duration
deriving DecidableEq

/-- How a type is written. -/
def Ty.text : Ty → String
  | .bool => "bool"
  | .uint width => "uint[" ++ toString width ++ "]"
  | .float => "float"
  | .duration => "duration"

/-- A literal value. -/
inductive Value where
  | bool (b : Bool)
  | uint (n : UInt64)
  | float (x : Float)

namespace Value

/-- Equal literals. Floats are compared as numbers, so `NaN` equals nothing. -/
def beq : Value → Value → Bool
  | .bool a, .bool b => a == b
  | .uint a, .uint b => a == b
  | .float a, .float b => a == b
  | _, _ => false

instance : BEq Value := ⟨beq⟩

/-- The number of binary digits of `n`, none for zero: what the leading zeros leave of the word. -/
def bitLength (n : UInt64) : Nat := 64 - n.toBitVec.clz.toNat

/-- The narrowest type of the value; zero takes one bit. -/
def naturalType : Value → Ty
  | .bool _ => .bool
  | .uint n => .uint (UInt32.ofNat (max (bitLength n) 1))
  | .float _ => .float

/-- Whether the value has the type without losing information. A width of 64
or more holds every literal. -/
def fits : Value → Ty → Bool
  | .bool _, .bool => true
  | .float _, .float => true
  | .uint n, .uint width => 64 ≤ width || n >>> width.toUInt64 == 0
  | _, _ => false

/-- How a literal is written. -/
def text : Value → String
  | .bool b => toString b
  | .uint n => toString n
  | .float x => floatText x

end Value

/-- A typed variable. -/
structure Var where
  name : String
  type : Ty
  identity : Identity
deriving DecidableEq

/-- A duration to be fixed by a scheduler. -/
structure Stretch where
  name : String
  identity : Identity
deriving DecidableEq

/-- The two sorts of identifier. -/
inductive IdentifierSort where
  | var
  | stretch
deriving DecidableEq, Repr

/-- What an identifier of this sort is called in messages. -/
def IdentifierSort.word : IdentifierSort → String
  | .var => "var"
  | .stretch => "stretch"

/-- A variable or a stretch. -/
inductive Identifier where
  | var (v : Var)
  | stretch (s : Stretch)
deriving DecidableEq

namespace Identifier

/-- The name. -/
def name : Identifier → String
  | .var v => v.name
  | .stretch s => s.name

/-- The type; a stretch is always a duration. -/
def type : Identifier → Ty
  | .var v => v.type
  | .stretch _ => .duration

/-- The sort. -/
def sort : Identifier → IdentifierSort
  | .var _ => .var
  | .stretch _ => .stretch

/-- The variable, if it is one. -/
def var? : Identifier → Option Var
  | .var v => some v
  | .stretch _ => none

/-- The stretch, if it is one. -/
def stretch? : Identifier → Option Stretch
  | .var _ => none
  | .stretch s => some s

/-- Another identifier of the same sort and type. -/
def renamed (i : Identifier) (name : String) (identity : Identity) : Identifier :=
  match i with
  | .var v => .var ⟨name, v.type, identity⟩
  | .stretch _ => .stretch ⟨name, identity⟩

end Identifier

/-- How an identifier came into a circuit. -/
inductive IdentifierKind where
  /-- Supplied when the circuit is run. -/
  | input
  /-- Taken over from an enclosing circuit. -/
  | capture
  /-- Declared by the circuit itself. -/
  | declare
deriving DecidableEq, Repr

end QuantumCircuit
