import QuantumCircuit.Param.Expr

/-!
# Standard gates

The gates with a fixed meaning: those without an angle, those with one, and the
universal one-qubit gate with three.
-/

namespace QuantumCircuit

/-- Gates without an angle. -/
inductive FixedGate where
  | id | x | y | z | h | s | sdg | t | tdg | sx | sxdg
  | cx | cy | cz | ch | swap | iswap
  | ccx | cswap
deriving DecidableEq, Repr

/-- Gates with one angle. -/
inductive RotationGate where
  | rx | ry | rz | p
  | crx | cry | crz | cp | rxx | ryy | rzz
deriving DecidableEq, Repr

namespace FixedGate

/-- The name. -/
def name : FixedGate → String
  | id => "id" | x => "x" | y => "y" | z => "z" | h => "h" | s => "s" | sdg => "sdg"
  | t => "t" | tdg => "tdg" | sx => "sx" | sxdg => "sxdg"
  | cx => "cx" | cy => "cy" | cz => "cz" | ch => "ch" | swap => "swap" | iswap => "iswap"
  | ccx => "ccx" | cswap => "cswap"

/-- All of them. -/
def all : List FixedGate :=
  [id, x, y, z, h, s, sdg, t, tdg, sx, sxdg, cx, cy, cz, ch, swap, iswap, ccx, cswap]

/-- The number of qubits. -/
def numQubits : FixedGate → Nat
  | id | x | y | z | h | s | sdg | t | tdg | sx | sxdg => 1
  | cx | cy | cz | ch | swap | iswap => 2
  | ccx | cswap => 3

end FixedGate

namespace RotationGate

/-- The name. -/
def name : RotationGate → String
  | rx => "rx" | ry => "ry" | rz => "rz" | p => "p"
  | crx => "crx" | cry => "cry" | crz => "crz" | cp => "cp"
  | rxx => "rxx" | ryy => "ryy" | rzz => "rzz"

/-- All of them. -/
def all : List RotationGate := [rx, ry, rz, p, crx, cry, crz, cp, rxx, ryy, rzz]

/-- The number of qubits. -/
def numQubits : RotationGate → Nat
  | rx | ry | rz | p => 1
  | crx | cry | crz | cp | rxx | ryy | rzz => 2

end RotationGate

/-- A standard gate with its angles. -/
inductive Gate where
  | fixed (g : FixedGate)
  | rotation (g : RotationGate) (angle : Angle)
  /-- Any rotation of one qubit. -/
  | universal (theta phi lam : Angle)

namespace Gate

/-- The name. -/
def name : Gate → String
  | fixed g => g.name
  | rotation g _ => g.name
  | universal _ _ _ => "u"

/-- The number of qubits. -/
def numQubits : Gate → Nat
  | fixed g => g.numQubits
  | rotation g _ => g.numQubits
  | universal _ _ _ => 1

/-- The angles. -/
def angles : Gate → List Angle
  | fixed _ => []
  | rotation _ a => [a]
  | universal a b c => [a, b, c]

/-- Change the angles. -/
def mapAngles (f : Angle → Angle) : Gate → Gate
  | fixed g => fixed g
  | rotation g a => rotation g (f a)
  | universal a b c => universal (f a) (f b) (f c)

/-- Whether a parameter is left in some angle. -/
def isParameterized (g : Gate) : Bool := g.angles.any (·.isSymbolic)

/-- Equal gates with equal angles. -/
def beq : Gate → Gate → Bool
  | fixed g, fixed g' => g == g'
  | rotation g a, rotation g' b => g == g' && a == b
  | universal a b c, universal d e f => a == d && b == e && c == f
  | _, _ => false

instance : BEq Gate := ⟨beq⟩

/-- The gate of that name with these angles, if the number of angles is right. -/
def ofName? (name : String) (angles : List Angle) : Option Gate :=
  match angles with
  | [] => (FixedGate.all.find? (·.name == name)).map fixed
  | [a] => (RotationGate.all.find? (·.name == name)).map (rotation · a)
  | [a, b, c] => if name == "u" then some (universal a b c) else none
  | _ => none

end Gate

end QuantumCircuit
