import QuantumCircuit.Circuit.Scope

/-!
# Closing a block

A finished block becomes a body: a circuit of its own over the bits in a given
footprint, with its records renumbered onto them, the identifiers of outer
scopes as captures and its locals as declarations. Jumps, and branches with
jumps in them, are given the footprint of the whole loop.
-/

namespace QuantumCircuit

mutual

/-- All that a block touches, its branches with jumps included. -/
def Block.span : Block → Footprint
  | ⟨footprint, _, items, _⟩ => BlockItem.spanList footprint items

/-- What `acc` and the items touch. Records and jumps are noted when they are
added, so only branches with jumps in them are still to be counted. -/
def BlockItem.spanList (acc : Footprint) : List BlockItem → Footprint
  | [] => acc
  | .record _ :: rest => BlockItem.spanList acc rest
  | .jump _ :: rest => BlockItem.spanList acc rest
  | .branch _ t none :: rest => BlockItem.spanList (acc.union t.span) rest
  | .branch _ t (some f) :: rest => BlockItem.spanList (acc.union (t.span.union f.span)) rest
  | .dispatch _ arms :: rest => BlockItem.spanList (acc.union (BlockArm.spanList .empty arms)) rest

/-- What `acc` and the cases touch. -/
def BlockArm.spanList (acc : Footprint) : List BlockArm → Footprint
  | [] => acc
  | ⟨_, block⟩ :: rest => BlockArm.spanList (acc.union block.span) rest

end

/-- The names under which bodies are known. -/
inductive BodyRole where
  | ifBody | elseBody | whileBody | forBody | caseBody | boxBody
deriving DecidableEq, Repr

/-- The circuit name of a body. -/
def BodyRole.name : BodyRole → String
  | .ifBody => "if_body"
  | .elseBody => "else_body"
  | .whileBody => "while_body"
  | .forBody => "for_body"
  | .caseBody => "case_body"
  | .boxBody => "box_body"

/-- Add the bits at the given positions of `root`, and answer which of them went where. -/
def Content.importBits (root : Content) (k : BitKind) :
    List Nat → Edit Content (List (Nat × Nat))
  | [] => pure []
  | position :: rest => do
    match (root.bits k).get? position with
    | none => throw (.positionOutOfRange k position (root.bits k).size)
    | some bit =>
      let here ← Content.addBit bit
      return (position, here) :: (← importBits root k rest)

/-- The new position of an operand. -/
def relocate (k : BitKind) (operation : String) (moved : List (Nat × Nat)) (position : Nat) :
    Except CircuitError Nat :=
  match Assoc.find? position moved with
  | some here => .ok here
  | none => .error (.missingBit k (k.positionText position) (some operation))

/-- The instruction on the bits of the body. -/
def Instruction.localize (i : Instruction) (qubits clbits : List (Nat × Nat)) :
    Except CircuitError Instruction := do
  let qs ← i.qubits.mapM (relocate .quantum i.name qubits)
  let cs ← i.clbits.mapM (relocate .classical i.name clbits)
  return { i with qubits := qs, clbits := cs }

/-- Add the instruction to a body. -/
def Content.pushLocal (i : Instruction) (qubits clbits : List (Nat × Nat)) : Edit Content Unit := do
  let i ← Edit.ofExcept (i.localize qubits clbits)
  Content.push i

/-- Give a body its bits, registers and identifiers, and answer where bits went. -/
def Content.prepareBody (root : Content) (f : Footprint) (captures : List Identifier)
    (locals : IdentifierTable) : Edit Content (List (Nat × Nat) × List (Nat × Nat)) := do
  let qubits ← Content.importBits root .quantum f.qubits
  let clbits ← Content.importBits root .classical f.clbits
  Edit.each (fun r => Content.addRegister r) f.registers
  Edit.each (fun i => Content.addIdentifier i .capture)
    (captures.filter fun i => !locals.contains i)
  Edit.each (fun i => Content.addIdentifier i .declare) (locals.toList.map (·.1))
  return (qubits, clbits)

mutual

/-- The body that the block becomes over the bits in `f`. -/
def Block.close (root : Content) (f : Footprint) (role : BodyRole) :
    Block → Except CircuitError Circuit
  | ⟨footprint, locals, items, _⟩ => do
    let captures := Distinct.union f.captures (BlockItem.spanList footprint items).captures
    let body : Edit Content Unit := do
      let (qubits, clbits) ← Content.prepareBody root f captures locals
      BlockItem.closeList root f qubits clbits items
    return ⟨role.name, ← body.finalState .empty, []⟩

/-- Add the items to the body. Whatever has a jump in it spans all bits in `f`. -/
def BlockItem.closeList (root : Content) (f : Footprint) (qubits clbits : List (Nat × Nat)) :
    List BlockItem → Edit Content Unit
  | [] => pure ()
  | .record i :: rest => do
    Content.pushLocal i qubits clbits
    BlockItem.closeList root f qubits clbits rest
  | .jump j :: rest => do
    let flow := ControlFlow.jump j f.qubits.length f.clbits.length
    Content.pushLocal (.make (.control flow) f.qubits f.clbits) qubits clbits
    BlockItem.closeList root f qubits clbits rest
  | .branch condition t none :: rest => do
    let t ← Edit.ofExcept (t.close root f .ifBody)
    let flow ← Edit.ofExcept (ControlFlow.makeIfElse condition t none)
    Content.pushLocal (.make (.control flow) f.qubits f.clbits) qubits clbits
    BlockItem.closeList root f qubits clbits rest
  | .branch condition t (some e) :: rest => do
    let t ← Edit.ofExcept (t.close root f .ifBody)
    let e ← Edit.ofExcept (e.close root f .elseBody)
    let flow ← Edit.ofExcept (ControlFlow.makeIfElse condition t (some e))
    Content.pushLocal (.make (.control flow) f.qubits f.clbits) qubits clbits
    BlockItem.closeList root f qubits clbits rest
  | .dispatch target arms :: rest => do
    let arms ← Edit.ofExcept (BlockArm.closeList root f arms)
    let flow ← Edit.ofExcept (ControlFlow.makeSwitch target arms)
    Content.pushLocal (.make (.control flow) f.qubits f.clbits) qubits clbits
    BlockItem.closeList root f qubits clbits rest

/-- The cases with their bodies. -/
def BlockArm.closeList (root : Content) (f : Footprint) :
    List BlockArm → Except CircuitError (List SwitchArm)
  | [] => .ok []
  | ⟨labels, block⟩ :: rest => do
    let body ← block.close root f .caseBody
    return ⟨labels, body⟩ :: (← BlockArm.closeList root f rest)

end

end QuantumCircuit
