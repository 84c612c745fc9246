import QuantumCircuit.Circuit.Splice
import QuantumCircuit.Circuit.Wrap

/-!
# Composing, decomposing and tensoring

Composing splices the records of one circuit into another; decomposing splices
the definitions of custom operations into the place where they stand; tensoring
stacks two circuits into a new one. Clbits in the bodies of control flow are
left alone by all three: only identifiers are renamed there.
-/

namespace QuantumCircuit

namespace Content

/-- Add the clbits and classical registers of `source`. -/
def addClbitsOf (source : Content) : Edit Content Unit := do
  Edit.each (fun bit => do let _ ← Content.addBit bit) source.clbits.bits
  Edit.each (fun r => Content.addRegister r) source.clbits.registers

/-- Add records before all others or after them. -/
def addRecords (front : Bool) (records : List Instruction) : Edit Content Unit :=
  if front then insertFront records else Edit.each push records

/-- Add to the phase. -/
def addPhase (phase : Angle) : Edit Content Unit := do
  setPhase (ParamExpr.add (← get).phase phase).simplify

/-- Add all that the splice calls for. -/
def addSplice (source : Content) (front : Bool) (s : Splice) : Edit Content Unit := do
  Edit.onlyIf s.placement.bringClbits (addClbitsOf source)
  Edit.each (fun r => Content.addRegister r) s.aliases
  Edit.each (fun (i, kind) => Content.addIdentifier i kind) s.identifiers.additions
  addRecords front s.records
  Edit.onlyIf source.phase.isPhase (addPhase source.phase)

end Content

namespace Circuit

/-- Leave the open blocks as they were if the edit is refused. -/
def keepingBlocks (e : Edit Circuit Unit) : Edit Circuit Unit := fun c =>
  match e c with
  | .ok () c' => .ok () c'
  | .error cause c' => .error cause { c' with blocks := c.blocks }

/-- Add the records of the splice, and what they use and declare, to the open block. -/
def addSpliceInScope (s : Splice) : Edit Circuit Unit := do
  Edit.ofExcept (refuseIf (!s.aliases.isEmpty) (.activeScope .composeRegister))
  keepingBlocks do
    Edit.each useIdentifier s.identifiers.uses
    Edit.each declare s.identifiers.declarations
    Edit.each append s.records

/-- Add `source` as one operation. -/
def composeWrapped (source : Circuit) (front : Bool) (p : Placement) : Edit Circuit Unit := do
  let op ← Edit.ofExcept source.toOperation
  let instruction := Instruction.make (.custom op) p.qubits p.clbits
  Edit.onlyIf p.bringClbits (Edit.within contentFocus (Content.addClbitsOf source.content))
  if front then Edit.within contentFocus (Content.insertFront [instruction])
  else append instruction

/-- Splice `source` into the circuit, or into the open block. In a block there
can be no insertion at the front, no phase, no new input or capture, and no new
register. -/
def compose (source : Circuit) (o : ComposeOptions) : Edit Circuit Unit := do
  let c ← get
  let p ← Edit.ofExcept (c.place source o)
  if o.wrap then composeWrapped source o.front p
  else
    let s ← Edit.ofExcept (c.splice source o p)
    if c.inScope then addSpliceInScope s
    else Edit.within contentFocus (Content.addSplice source.content o.front s)

/-- A copy of the circuit with `source` composed onto it. -/
def composed (c source : Circuit) (o : ComposeOptions) : Except CircuitError Circuit :=
  if c.inScope then .error (.activeScope .composed) else (compose source o).finalState c

/-- Add a record, or in its place the definition that its operation has. -/
def addExpanded (i : Instruction) : Edit Circuit Unit :=
  match i.operation with
  | .custom { definition := some d, .. } =>
    compose d { qubits := some i.qubits, clbits := some i.clbits }
  | _ => Edit.within contentFocus (Content.push i)

/-- The circuit with every definition in the place of its operation, one level deep. -/
def decompose (c : Circuit) : Except CircuitError Circuit :=
  if c.inScope then .error (.activeScope .decompose)
  else (Edit.each addExpanded c.content.records).finalState (c.copyEmpty none .alike)

/-- Whether the only register has this name. -/
def onlyRegister {k : BitKind} (c : Circuit) (name : String) : Bool :=
  match (c.content.bits k).registers with
  | [r] => r.name == name
  | _ => false

/-- Add bits of `low` and then of `high`, and their registers in the same order. -/
def addBitsOfBoth (k : BitKind) (low high : Circuit) : Edit Circuit Unit :=
  Edit.within contentFocus do
    let (l, h) := (low.content.bits k, high.content.bits k)
    Edit.each (fun bit => do let _ ← Content.addBit bit) (l.bits ++ h.bits)
    Edit.each (fun r => Content.addRegister r) (l.registers ++ h.registers)

/-- The empty circuit that two stacked circuits go into. Two default registers
become one, and so do two measurement registers. -/
def tensorFrame (low high : Circuit) (stamp : Nat) : Except CircuitError Circuit :=
  let numQubits := high.numQubits + low.numQubits
  let numClbits := high.numClbits + low.numClbits
  let both {k : BitKind} (name : String) : Bool :=
    high.onlyRegister (k := k) name && low.onlyRegister (k := k) name
  if both (k := .quantum) "q" then .ok (withSize high.name numQubits numClbits stamp)
  else
    let frame : Edit Circuit Unit := do
      addBitsOfBoth .quantum low high
      if both (k := .classical) "meas" then
        Edit.within contentFocus
          (Content.addRegister (Register.make .classical "meas" numClbits stamp))
      else addBitsOfBoth .classical low high
    frame.finalState (.empty high.name)

/-- Stack `high` on top of `low` in a new circuit, with `low` on the low bits. -/
def tensor (high low : Circuit) (stamp : Nat) : Except CircuitError Circuit := do
  refuseIf (high.inScope || low.inScope) (.activeScope .tensor)
  let frame ← tensorFrame low high stamp
  let shifted (offset size : Nat) : List Nat := (List.range size).map (offset + ·)
  let stack : Edit Circuit Unit := do
    compose low
      { qubits := some (List.range low.numQubits), clbits := some (List.range low.numClbits) }
    compose high
      { qubits := some (shifted low.numQubits high.numQubits)
        clbits := some (shifted low.numClbits high.numClbits) }
  stack.finalState frame

end Circuit

end QuantumCircuit
