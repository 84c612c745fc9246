import QuantumCircuit.Circuit.Content

/-!
# Parameter assignment

Assigning puts expressions in the place of parameters: in the angles of gates,
in the parameters and definitions of custom operations, in the bodies of control
flow and in the phase. A loop binds its own parameter, so inside its body that
parameter is left alone. Only the records that use one of the keys, as the index
of the content tells, are rebuilt; so it is in every body and definition.
-/

namespace QuantumCircuit

/-- The parameters that replacements bring in, each once. -/
def Binding.incoming (s : Binding Float) : List Parameter :=
  Distinct.ofList ((Assoc.values s).flatMap (·.symbols))

/-- Refuse replacements that bring in a parameter with the name of a different
one, unless that one is replaced. -/
def ParameterTable.checkIncoming (t : ParameterTable) (s : Binding Float) :
    Except CircuitError Unit :=
  let clashes (p : Parameter) : Bool := (t.named? p.name).any fun q => q != p && !Assoc.contains q s
  match (Binding.incoming s).find? clashes with
  | some p => .error (.parameterNameConflict p.name)
  | none => .ok ()

/-- The index after the operations of the records at `indices` changed from
those of `old` to those of `new`, one record after another. -/
def ParameterTable.retrack (t : ParameterTable) (indices : List Nat) (old new : List Instruction) :
    ParameterTable :=
  let free (records : List Instruction) (index : Nat) : List (Nat × Parameter) :=
    (records[index]?.map (·.operation.freeParameters)).getD []
  indices.foldl (fun t i => (t.untrackRecord i (free old i)).trackRecord i (free new i)) t

mutual

/-- The operation with the replacements made. -/
def Operation.assign (s : Binding Float) : Operation → Except CircuitError Operation
  | .gate g => .ok (.gate (g.mapAngles (·.subst s)))
  | .custom op => do return .custom (← op.assign s)
  | .measure => .ok .measure
  | .reset => .ok .reset
  | .barrier width => .ok (.barrier width)
  | .delay d => .ok (.delay d)
  | .store a => .ok (.store a)
  | .control flow => do return .control (← flow.assign s)

/-- The custom operation with the replacements made, in its definition as well. -/
def CustomOp.assign (s : Binding Float) : CustomOp → Except CircuitError CustomOp
  | ⟨name, numQubits, numClbits, params, definition, unitary⟩ => do
    let definition ← Circuit.assignOption s definition
    return ⟨name, numQubits, numClbits, params.map (·.subst s), definition, unitary⟩

/-- The control flow with the replacements made in its bodies. -/
def ControlFlow.assign (s : Binding Float) : ControlFlow → Except CircuitError ControlFlow
  | .ifElse c t f => do
    let t ← t.assign s
    let f ← Circuit.assignOption s f
    return .ifElse c t f
  | .whileLoop c b => do return .whileLoop c (← b.assign s)
  | .forLoop i none b => do return .forLoop i none (← b.assign s)
  | .forLoop i (some p) b => do return .forLoop i (some p) (← b.assign (Assoc.erase p s))
  | .switchCase t arms => do return .switchCase t (← SwitchArm.assignList s arms)
  | .box b d => do return .box (← b.assign s) d
  | .jump j q c => .ok (.jump j q c)

/-- The cases with the replacements made. -/
def SwitchArm.assignList (s : Binding Float) : List SwitchArm → Except CircuitError (List SwitchArm)
  | [] => .ok []
  | ⟨labels, body⟩ :: rest => do
    let body ← body.assign s
    return ⟨labels, body⟩ :: (← SwitchArm.assignList s rest)

/-- The circuit, if there is one, with the replacements made. -/
def Circuit.assignOption (s : Binding Float) : Option Circuit → Except CircuitError (Option Circuit)
  | none => .ok none
  | some c => do return some (← c.assign s)

/-- The circuit with the replacements made. -/
def Circuit.assign (s : Binding Float) : Circuit → Except CircuitError Circuit
  | ⟨name, content, blocks⟩ => do return ⟨name, ← content.assign s, blocks⟩

/-- The content with the replacements made. Keys that are not in use do nothing. -/
def Content.assign (s : Binding Float) : Content → Except CircuitError Content
  | ⟨qubits, clbits, records, table, phase, identifiers, duration⟩ => do
    table.checkIncoming s
    let (indices, usesPhase) := table.affected (Assoc.keys s)
    let assigned ← Instruction.assignList s indices 0 records
    let table := table.retrack indices records assigned
    if usesPhase then
      let replaced := (phase.subst s).normalizedPhase
      let table := (table.untrackPhase phase.parameters).trackPhase replaced.parameters
      return ⟨qubits, clbits, assigned, table, replaced, identifiers, duration⟩
    else return ⟨qubits, clbits, assigned, table, phase, identifiers, duration⟩

/-- The records, of which the first has position `index`, with the replacements
made at `indices`. -/
def Instruction.assignList (s : Binding Float) (indices : List Nat) (index : Nat) :
    List Instruction → Except CircuitError (List Instruction)
  | [] => .ok []
  | ⟨operation, qubits, clbits, label⟩ :: rest => do
    let operation ← if indices.contains index then operation.assign s else .ok operation
    let rest ← Instruction.assignList s indices (index + 1) rest
    return ⟨operation, qubits, clbits, label⟩ :: rest

end

namespace Content

/-- Assign; with `strict`, refuse keys that are not in use. -/
def assignParameters (s : Binding Float) (strict : Bool) : Edit Content Unit :=
  Edit.update fun c =>
    match (Assoc.keys s).find? fun p => strict && !c.table.contains p with
    | some missing => .error (.parameterNotFound missing.name)
    | none => c.assign s

/-- Assign values to the parameters in canonical order, one to each. -/
def assignValues (values : List Angle) : Edit Content Unit := do
  let c ← get
  Edit.ofExcept
    (refuseIf (values.length ≠ c.table.size) (.parameterCount c.table.size values.length))
  assignParameters (Assoc.ofPairs (c.parameters.zip values)) true

/-- The binding that gives each named parameter its value; later ones replace earlier ones. -/
def bindingOfNames (c : Content) (s : Binding Float) :
    List (String × Angle) → Except CircuitError (Binding Float)
  | [] => .ok s
  | (name, value) :: rest =>
    match c.table.named? name with
    | some p => bindingOfNames c (Assoc.insert p value s) rest
    | none => .error (.parameterNotFound name)

/-- Assign values to parameters by name. -/
def assignNamed (values : List (String × Angle)) : Edit Content Unit := do
  let c ← get
  let s ← Edit.ofExcept (c.bindingOfNames [] values)
  assignParameters s true

end Content

end QuantumCircuit
