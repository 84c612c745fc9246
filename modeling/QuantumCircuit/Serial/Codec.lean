import QuantumCircuit.Classical.Ty
import QuantumCircuit.Control
import QuantumCircuit.Gate
import QuantumCircuit.Serial.Tree

/-!
# Writing values out and reading them back

A variant without payload is written as its tag; any other as a record with the
tag as its only field, over the payload itself, or over a list or a record of
several. Each writer stands beside its reader.
-/

namespace QuantumCircuit

open Serial (Tree)

/-- Read every member of a list. -/
def readEach {α : Type} (read : Tree → Option α) : List Tree → Option (List α)
  | [] => some []
  | t :: rest => do
    let a ← read t
    let others ← readEach read rest
    return a :: others

/-- A number of 32 bits. -/
def readWord32 (t : Tree) : Option UInt32 :=
  (t.intIn? 0 (.pow 2 32 - 1)).map fun n => .ofNat n.toNat

/-- A number of 64 bits. -/
def readWord64 (t : Tree) : Option UInt64 :=
  (t.intIn? 0 (.pow 2 64 - 1)).map fun n => .ofNat n.toNat

/-- A signed number of 64 bits. -/
def readSigned64 (t : Tree) : Option Int64 :=
  (t.intIn? (-.pow 2 63) (.pow 2 63 - 1)).map Int64.ofInt

namespace Ty

/-- Write a type. -/
def write : Ty → Tree
  | bool => .text "Bool"
  | uint width => .tagged "Uint" (.int width.toNat)
  | float => .text "Float"
  | duration => .text "Duration"

/-- Read a type. -/
def read? : Tree → Option Ty
  | .text "Bool" => some bool
  | .text "Float" => some float
  | .text "Duration" => some duration
  | .record [("Uint", width)] => (readWord32 width).map uint
  | _ => none

end Ty

namespace Value

/-- Write a literal. -/
def write : Value → Tree
  | bool b => .tagged "Bool" (.bool b)
  | uint n => .tagged "Uint" (.int n.toNat)
  | float x => .tagged "Float" (.ofFloat x)

/-- Read a literal. -/
def read? : Tree → Option Value
  | .record [("Bool", .bool b)] => some (bool b)
  | .record [("Uint", n)] => (readWord64 n).map uint
  | .record [("Float", x)] => x.float?.map float
  | _ => none

end Value

namespace Var

/-- Write a variable. -/
def write (v : Var) : Tree :=
  .record [("name", .text v.name), ("ty", v.type.write), ("uuid", .identity v.identity)]

/-- Read a variable. -/
def read? : Tree → Option Var
  | .record [("name", .text name), ("ty", type), ("uuid", .identity identity)] => do
    let type ← Ty.read? type
    return ⟨name, type, identity⟩
  | _ => none

end Var

namespace Stretch

/-- Write a stretch. -/
def write (s : Stretch) : Tree :=
  .record [("name", .text s.name), ("uuid", .identity s.identity)]

/-- Read a stretch. -/
def read? : Tree → Option Stretch
  | .record [("name", .text name), ("uuid", .identity identity)] => some ⟨name, identity⟩
  | _ => none

end Stretch

namespace Identifier

/-- Write an identifier. -/
def write : Identifier → Tree
  | var v => .tagged "Var" v.write
  | stretch s => .tagged "Stretch" s.write

/-- Read an identifier. -/
def read? : Tree → Option Identifier
  | .record [("Var", v)] => (Var.read? v).map var
  | .record [("Stretch", s)] => (Stretch.read? s).map stretch
  | _ => none

end Identifier

namespace Parameter

/-- Write a parameter. -/
def write (p : Parameter) : Tree :=
  let element := match p.element with
    | none => .null
    | some e => .record [("vector", .text e.vector), ("index", .int e.index.toNat)]
  .record [("name", .text p.name), ("uuid", .identity p.identity), ("vector", element)]

/-- Read the place of a parameter in its vector. -/
def readElement? : Tree → Option (Option VectorElement)
  | .null => some none
  | .record [("vector", .text vector), ("index", index)] =>
    (readWord32 index).map fun n => some ⟨vector, n⟩
  | _ => none

/-- Read a parameter. -/
def read? : Tree → Option Parameter
  | .record [("name", .text name), ("uuid", .identity identity), ("vector", element)] => do
    let element ← readElement? element
    return ⟨name, identity, element⟩
  | _ => none

end Parameter

namespace ParameterVector

/-- Write a parameter vector. -/
def write (v : ParameterVector) : Tree :=
  .record [("name", .text v.name), ("params", .list (v.elements.map Parameter.write))]

/-- Read a parameter vector. -/
def read? : Tree → Option ParameterVector
  | .record [("name", .text name), ("params", .list elements)] => do
    let elements ← readEach Parameter.read? elements
    return ⟨name, elements⟩
  | _ => none

end ParameterVector

namespace ParamExpr

/-- Write a parameter expression. -/
def write : ParamExpr Float → Tree
  | const x => .tagged "Constant" (.ofFloat x)
  | sym p => .tagged "Symbol" p.write
  | pi => .text "Pi"
  | neg a => .tagged "Neg" a.write
  | add a b => .tagged "Add" (.list [a.write, b.write])
  | sub a b => .tagged "Sub" (.list [a.write, b.write])
  | mul a b => .tagged "Mul" (.list [a.write, b.write])
  | div a b => .tagged "Div" (.list [a.write, b.write])

/-- Read a parameter expression. -/
def read? : Tree → Option (ParamExpr Float)
  | .text "Pi" => some pi
  | .record [("Constant", x)] => x.float?.map const
  | .record [("Symbol", p)] => (Parameter.read? p).map sym
  | .record [("Neg", a)] => (read? a).map neg
  | .record [("Add", .list [a, b])] => do return add (← read? a) (← read? b)
  | .record [("Sub", .list [a, b])] => do return sub (← read? a) (← read? b)
  | .record [("Mul", .list [a, b])] => do return mul (← read? a) (← read? b)
  | .record [("Div", .list [a, b])] => do return div (← read? a) (← read? b)
  | _ => none

end ParamExpr

/-- The tag of a gate. -/
def FixedGate.tag : FixedGate → String
  | .id => "I" | .x => "X" | .y => "Y" | .z => "Z" | .h => "H" | .s => "S" | .sdg => "Sdg"
  | .t => "T" | .tdg => "Tdg" | .sx => "SX" | .sxdg => "SXdg"
  | .cx => "CX" | .cy => "CY" | .cz => "CZ" | .ch => "CH" | .swap => "Swap" | .iswap => "ISwap"
  | .ccx => "CCX" | .cswap => "CSwap"

/-- The tag of a gate. -/
def RotationGate.tag : RotationGate → String
  | .rx => "Rx" | .ry => "Ry" | .rz => "Rz" | .p => "P"
  | .crx => "CRx" | .cry => "CRy" | .crz => "CRz" | .cp => "CP"
  | .rxx => "RXX" | .ryy => "RYY" | .rzz => "RZZ"

namespace Gate

/-- Write a gate. -/
def write : Gate → Tree
  | fixed g => .text g.tag
  | rotation g a => .tagged g.tag a.write
  | universal a b c => .tagged "U" (.list [a.write, b.write, c.write])

/-- Read a gate. -/
def read? : Tree → Option Gate
  | .text tag => (FixedGate.all.find? (·.tag == tag)).map fixed
  | .record [("U", .list [a, b, c])] => do
    return universal (← ParamExpr.read? a) (← ParamExpr.read? b) (← ParamExpr.read? c)
  | .record [(tag, a)] => do
    let g ← RotationGate.all.find? (·.tag == tag)
    return rotation g (← ParamExpr.read? a)
  | _ => none

end Gate

namespace CaseLabel

/-- Write a label. -/
def write : CaseLabel → Tree
  | value n => .tagged "Value" (.int n.toNat)
  | .otherwise => .text "Default"

/-- Read a label. -/
def read? : Tree → Option CaseLabel
  | .text "Default" => some .otherwise
  | .record [("Value", n)] => (readWord64 n).map value
  | _ => none

end CaseLabel

namespace LoopIndices

/-- Write loop indices. -/
def write : LoopIndices → Tree
  | range start stop step =>
    .tagged "Range"
      (.record [("start", .int start.toInt), ("stop", .int stop.toInt), ("step", .int step.toInt)])
  | values list => .tagged "Values" (.list (list.map fun n => .int n.toInt))

/-- Read loop indices. -/
def read? : Tree → Option LoopIndices
  | .record [("Range", .record [("start", start), ("stop", stop), ("step", step)])] => do
    return range (← readSigned64 start) (← readSigned64 stop) (← readSigned64 step)
  | .record [("Values", .list list)] => (readEach readSigned64 list).map values
  | _ => none

end LoopIndices

/-- Write a list of positions. -/
def writePositions (ns : List Nat) : Tree := .list (ns.map fun (n : Nat) => .int (Int.ofNat n))

/-- Read a list of positions. -/
def readPositions? : Tree → Option (List Nat)
  | .list items => (readEach readWord32 items).map fun ns => ns.map (·.toNat)
  | _ => none

end QuantumCircuit
