import QuantumCircuit.Circuit.Content

/-!
# Wrapping a circuit into an operation

A closed circuit without real-time identifiers can stand as one operation, with
itself as the definition and its parameters as the parameters. It is a gate when
it has no clbits and all its records are gates.
-/

namespace QuantumCircuit.Circuit

/-- The circuit as one operation. -/
def toInstruction (c : Circuit) : Except CircuitError CustomOp :=
  if c.inScope then .error (.activeScope .wrap)
  else if !c.content.identifiers.isEmpty then .error (.identifiersInWrapped c.name)
  else
    .ok { CustomOp.instruction c.name c.numQubits c.numClbits with
      params := c.parameters.map .sym
      definition := some c }

/-- The circuit as one gate. -/
def toGate (c : Circuit) : Except CircuitError CustomOp :=
  if 0 < c.numClbits then .error (.notAGate (.clbits c.name c.numClbits))
  else
    match c.content.records.find? (!·.operation.isGate) with
    | some i => .error (.notAGate (.operation i.name))
    | none => do
      let op ← c.toInstruction
      return { op with unitary := true }

/-- The circuit as one operation: a gate if it can be one. -/
def toOperation (c : Circuit) : Except CircuitError CustomOp :=
  match c.toGate with
  | .ok op => .ok op
  | .error _ => c.toInstruction

end QuantumCircuit.Circuit
