import QuantumCircuit.Circuit.Operation

/-!
# Broadcasting

An operand slot may be given several bits. A gate on one qubit is then applied
to each of them; a gate on two pairs lists of equal length, or repeats a single
bit; wider gates go through lists of equal length in step. Measurements pair in
the same way, and a single qubit may be measured into several clbits. Whatever
else takes its operands once, all slots in a row.
-/

namespace QuantumCircuit.Operation

variable {Q C : Type}

/-- The operands of each application of a gate. -/
def broadcastGate (op : Operation) (slots : List (List Q)) :
    Except CircuitError (List (List Q × List C)) :=
  if slots.any (·.isEmpty) then .error (.broadcast op.name .emptySlot)
  else
    match slots with
    | [] => .ok [([], [])]
    | [only] => .ok (only.map fun q => ([q], []))
    | [first, second] =>
      if first.length = second.length then
        .ok (List.zipWith (fun x y => ([x, y], [])) first second)
      else
        match first, second with
        | [x], _ => .ok (second.map fun y => ([x, y], []))
        | _, [y] => .ok (first.map fun x => ([x, y], []))
        | _, _ => .error (.broadcast op.name (.lengths first.length second.length))
    | first :: rest =>
      if rest.all (·.length == first.length) then
        .ok ((List.range first.length).map fun i => (slots.filterMap (·[i]?), []))
      else .error (.broadcast op.name .unequal)

/-- The operands of each measurement. -/
def broadcastMeasure (op : Operation) (qubits : List Q) (clbits : List C) :
    Except CircuitError (List (List Q × List C)) :=
  if qubits.length = clbits.length then
    .ok (List.zipWith (fun q c => ([q], [c])) qubits clbits)
  else
    match qubits, clbits with
    | [q], _ :: _ => .ok (clbits.map fun c => ([q], [c]))
    | _, _ => .error (.broadcast op.name (.measured qubits.length clbits.length))

/-- The operands of each application, from the bits given for each slot. -/
def broadcast (op : Operation) (qubits : List (List Q)) (clbits : List (List C)) :
    Except CircuitError (List (List Q × List C)) :=
  match op with
  | barrier _ => .ok [(qubits.flatten, clbits.flatten)]
  | _ => do
    Instruction.checkCounts op qubits.length clbits.length
    if op.isGate then op.broadcastGate qubits
    else
      match op, qubits, clbits with
      | measure, [q], [c] => op.broadcastMeasure q c
      | reset, [q], _ => .ok (q.map fun x => ([x], []))
      | delay _, [q], _ => .ok (q.map fun x => ([x], []))
      | _, _, _ => .ok [(qubits.flatten, clbits.flatten)]

end QuantumCircuit.Operation
