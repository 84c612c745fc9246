import QuantumCircuit.Circuit.Content

/-!
# Renaming identifiers in bodies

A renaming sends identifiers to identifiers of the same sort and type. In a body
it is applied to the list of identifiers and, at every depth, to all
expressions; the body is then built again from an empty copy, so that its
records are checked anew. What a body declares itself is not in the renaming and
stays.
-/

namespace QuantumCircuit

/-- Where identifiers go; those without an entry stay. -/
abbrev Renaming := List (Identifier × Identifier)

namespace Renaming

/-- Where the identifier goes. -/
def apply (m : Renaming) (i : Identifier) : Identifier := (Assoc.find? i m).getD i

/-- Whether anything goes elsewhere. -/
def changesAny (m : Renaming) : Bool := m.any fun (source, image) => source != image

/-- The new leaf for an identifier that goes elsewhere. -/
def leaf? (m : Renaming) : Expr → Option Expr
  | .var v =>
    match Assoc.find? (.var v) m with
    | some (.var w) => if w = v then none else some (.var w)
    | _ => none
  | .stretch s =>
    match Assoc.find? (.stretch s) m with
    | some (.stretch t) => if t = s then none else some (.stretch t)
    | _ => none
  | _ => none

/-- The new leaf, as a step that is never refused. -/
def leaf (m : Renaming) (e : Expr) : Except CircuitError (Option Expr) := .ok (m.leaf? e)

end Renaming

mutual

/-- The operation under the renaming. -/
def Operation.rename (m : Renaming) : Operation → Except CircuitError Operation
  | .store s => do return .store (← s.mapLeaves m.leaf)
  | .delay d => do return .delay (← d.mapLeaves m.leaf)
  | .control flow => do
    let renamed ← flow.mapLeaves m.leaf
    if m.changesAny then
      return .control (← renamed.replaceBodies (← flow.renameBodies m))
    else return .control renamed
  | .gate g => .ok (.gate g)
  | .custom op => .ok (.custom op)
  | .measure => .ok .measure
  | .reset => .ok .reset
  | .barrier width => .ok (.barrier width)

/-- The bodies under the renaming. -/
def ControlFlow.renameBodies (m : Renaming) : ControlFlow → Except CircuitError (List Circuit)
  | .ifElse _ t none => do return [← t.rename m]
  | .ifElse _ t (some f) => do
    let t ← t.rename m
    let f ← f.rename m
    return [t, f]
  | .whileLoop _ b => do return [← b.rename m]
  | .forLoop _ _ b => do return [← b.rename m]
  | .switchCase _ arms => SwitchArm.renameBodies m arms
  | .box b _ => do return [← b.rename m]
  | .jump _ _ _ => .ok []

/-- The bodies of the cases under the renaming. -/
def SwitchArm.renameBodies (m : Renaming) : List SwitchArm → Except CircuitError (List Circuit)
  | [] => .ok []
  | ⟨_, body⟩ :: rest => do
    let body ← body.rename m
    return body :: (← SwitchArm.renameBodies m rest)

/-- The circuit under the renaming. No blocks are open on it. -/
def Circuit.rename (m : Renaming) : Circuit → Except CircuitError Circuit
  | ⟨name, ⟨qubits, clbits, records, table, phase, identifiers, duration⟩, _⟩ => do
    let copy := Content.copyEmpty ⟨qubits, clbits, [], table, phase, identifiers, duration⟩ .drop
    let rebuild : Edit Content Unit := do
      Edit.each (fun (i, kind) => Content.addIdentifier (m.apply i) kind) identifiers.toList
      Instruction.renameList m records
    return ⟨name, ← rebuild.finalState copy, []⟩

/-- Add the records under the renaming. -/
def Instruction.renameList (m : Renaming) : List Instruction → Edit Content Unit
  | [] => pure ()
  | ⟨operation, qubits, clbits, label⟩ :: rest => do
    let operation ← Edit.ofExcept (operation.rename m)
    Content.push ⟨operation, qubits, clbits, label⟩
    Instruction.renameList m rest

end

end QuantumCircuit
