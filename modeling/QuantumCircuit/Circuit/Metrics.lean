import QuantumCircuit.Circuit.Content

/-!
# Sizes of a circuit

Counts over the records, and the depth: the length of the longest chain of
records in which each shares a wire with the next. Wires are the bits that a
record has as operands, the clbits that it reads, and its identifiers. Barriers
do not count.
-/

namespace QuantumCircuit

/-- What two records can share. -/
inductive Wire where
  | qubit (position : Nat)
  | clbit (position : Nat)
  | identifier (i : Identifier)
deriving DecidableEq

/-- The wires of a record in a circuit with this content. -/
def Instruction.wires (c : Content) (i : Instruction) : List Wire :=
  i.qubits.map .qubit ++ i.clbits.map .clbit
    ++ (i.operation.classicalUse.allClbits.filterMap c.clbits.indexOf?).map .clbit
    ++ i.operation.identifiers.map .identifier

/-- How far the longest chain reaches on each wire, and altogether. -/
structure Reach where
  levels : List (Wire × Nat)
  depth : Nat

/-- Take a record over the wires into account: it stands one level above the
highest of them, and all of them reach that level. -/
def Reach.step (r : Reach) (wires : List Wire) : Reach :=
  let level := (wires.filterMap fun w => Assoc.find? w r.levels).foldl max 0 + 1
  { levels := wires.foldl (fun levels w => Assoc.insert w level levels) r.levels
    depth := max r.depth level }

namespace Circuit

/-- The records that are no directives. -/
def activeRecords (c : Circuit) : List Instruction := c.content.records.filter (!·.isDirective)

/-- The number of records that are no directives. -/
def size (c : Circuit) : Nat := c.activeRecords.length

/-- The number of qubits and clbits together. -/
def totalWidth (c : Circuit) : Nat := c.numQubits + c.numClbits

/-- The length of the longest chain of records that are no directives. -/
def depth (c : Circuit) : Nat :=
  (c.activeRecords.foldl (fun r i => r.step (i.wires c.content)) (⟨[], 0⟩ : Reach)).depth

/-- The number of records on more than one qubit that are no directives. -/
def numNonlocal (c : Circuit) : Nat := (c.activeRecords.filter (1 < ·.qubits.length)).length

/-- How often each operation name occurs, the most frequent first, and names of
equal frequency in order of first occurrence. -/
def countOps (c : Circuit) : List (String × Nat) :=
  let count (counts : List (String × Nat)) (i : Instruction) : List (String × Nat) :=
    Assoc.insert i.name ((Assoc.find? i.name counts).getD 0 + 1) counts
  Sorting.sort (fun a b => b.2 ≤ a.2) (c.content.records.foldl count [])

end Circuit

end QuantumCircuit
