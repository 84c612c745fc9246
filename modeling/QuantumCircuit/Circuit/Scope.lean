import QuantumCircuit.Circuit.Content

/-!
# The active scope

Calls that add something act on the active scope: the innermost open block, or
the content when none is open. A block takes note of what its records touch, so
that the finished operation can be sized to fit, and an identifier used in it is
noted as a capture in every block from there out to the one that declares it.

Names are looked up from the innermost block outward. A block answers with its
own local of that name, or with what it captured under it.
-/

namespace QuantumCircuit

namespace Footprint

/-- Nothing touched. -/
def empty : Footprint := ⟨[], [], [], []⟩

/-- What either touches. -/
def union (a b : Footprint) : Footprint where
  qubits := Distinct.union a.qubits b.qubits
  clbits := Distinct.union a.clbits b.clbits
  registers := Distinct.union a.registers b.registers
  captures := Distinct.union a.captures b.captures

/-- The bits in the order they have in the outermost circuit. -/
def sorted (f : Footprint) : Footprint :=
  { f with
    qubits := Sorting.sort (· ≤ ·) f.qubits
    clbits := Sorting.sort (· ≤ ·) f.clbits }

end Footprint

namespace Block

/-- A block that touches nothing yet. -/
def empty (ban : Option JumpBan) : Block := ⟨.empty, .empty, [], ban⟩

/-- Whether the identifier resolves in the block: as a local or as a capture. -/
def resolves (b : Block) (i : Identifier) : Bool :=
  b.locals.contains i || b.footprint.captures.contains i

/-- The identifier that the block has under the name. -/
def named? (b : Block) (name : String) : Option Identifier :=
  match b.locals.get? name with
  | some i => some i
  | none => b.footprint.captures.find? (·.name == name)

/-- Take note of something touched. -/
def touch (b : Block) (f : Footprint) : Block := { b with footprint := b.footprint.union f }

/-- Add an item at the end. -/
def snoc (b : Block) (item : BlockItem) : Block := { b with items := b.items ++ [item] }

end Block

/-- Refuse an identifier that does not resolve from the innermost block outward,
because nothing declares it or because a local of the same name is in the way. -/
def checkResolves (c : Content) (i : Identifier) : List Block → Except CircuitError Unit
  | [] => if c.identifiers.contains i then .ok () else .error (.undeclaredIdentifier i.name)
  | b :: outer =>
    if b.resolves i then .ok ()
    else if b.locals.hasName i.name then .error (.identifierShadowing i.name)
    else checkResolves c i outer

/-- Note the identifier as a capture from the innermost block out to the one that has it. -/
def captureThrough (i : Identifier) : List Block → List Block
  | [] => []
  | b :: outer =>
    if b.resolves i then b :: outer
    else b.touch { Footprint.empty with captures := [i] } :: captureThrough i outer

/-- Refuse clbits and registers that are not there. -/
def Content.checkClassical (c : Content) (u : ClassicalUse) : Except CircuitError Unit := do
  checkEach (fun bit => do let _ ← c.locate bit) u.clbits
  checkEach c.checkRegister u.registers

/-- The positions of the clbits, and of the bits of the registers. -/
def Content.classicalPositions (c : Content) (u : ClassicalUse) :
    Except CircuitError (List Nat) := do
  c.checkClassical u
  c.resolveAll none u.allClbits

/-- What a record needs from a block around it, the registers of its bodies included. -/
def Instruction.classicalFootprint (i : Instruction) : ClassicalUse :=
  i.operation.classicalUse.append
    ⟨[], i.operation.bodies.flatMap (·.content.clbits.registers)⟩

namespace Circuit

/-- The identifier of that name, seen from the active scope. -/
def identifier? (c : Circuit) (name : String) : Option Identifier :=
  match c.blocks.findSome? (·.named? name) with
  | some i => some i
  | none => c.content.identifiers.get? name

/-- Change the innermost block. -/
def onTop (f : Block → Block) (c : Circuit) : Circuit :=
  match c.blocks with
  | [] => c
  | top :: outer => { c with blocks := f top :: outer }

/-- Note a use of the identifier. -/
def useIdentifier (i : Identifier) : Edit Circuit Unit :=
  Edit.update fun c => do
    checkResolves c.content i c.blocks
    return { c with blocks := captureThrough i c.blocks }

/-- Note a use of clbits and registers, all of which must be there. -/
def useClassical (u : ClassicalUse) : Edit Circuit Unit :=
  Edit.update fun c =>
    match c.blocks with
    | [] => do
      c.content.checkClassical u
      return c
    | _ :: _ => do
      let positions ← c.content.classicalPositions u
      let touched : Footprint :=
        { Footprint.empty with clbits := positions, registers := u.registers }
      return c.onTop (·.touch touched)

/-- Whether the name means something in the circuit or in an open block. -/
def nameVisible (c : Circuit) (name : String) : Bool :=
  c.content.identifiers.hasName name || (c.content.clbits.register? name).isSome
    || c.blocks.any fun b => b.locals.hasName name || b.footprint.captures.any (·.name == name)

/-- Refuse an identifier that cannot be declared in the active scope. -/
def checkDeclaration (c : Circuit) (i : Identifier) : Except CircuitError Unit :=
  match c.blocks with
  | [] => c.content.checkIdentifier i .declare
  | top :: _ =>
    if c.nameVisible i.name then .error (.identifierShadowing i.name)
    else top.locals.check i .declare

/-- Declare an identifier in the active scope, without a value. -/
def declare (i : Identifier) : Edit Circuit Unit := fun c =>
  match c.blocks with
  | [] => Edit.within contentFocus (Content.addIdentifier i .declare) c
  | top :: outer =>
    match c.checkDeclaration i with
    | .error e => .error e c
    | .ok () =>
      .ok () { c with blocks := { top with locals := top.locals.insert i .declare } :: outer }

/-- Refuse a record that the active scope cannot take, counting `pending`
identifiers as declared. -/
def checkAppend (c : Circuit) (i : Instruction) (pending : List Identifier) :
    Except CircuitError Unit :=
  match c.blocks with
  | [] => c.content.checkWith i pending
  | blocks => do
    c.content.checkOperands i
    checkEach (fun id => if pending.contains id then .ok () else checkResolves c.content id blocks)
      i.operation.identifiers
    let _ ← c.content.classicalPositions i.classicalFootprint

/-- Add a record to the active scope. -/
def append (i : Instruction) : Edit Circuit Unit := fun c =>
  match c.blocks with
  | [] => Edit.within contentFocus (Content.push i) c
  | _ :: _ =>
    let edit : Edit Circuit Unit := do
      Edit.ofExcept (c.checkAppend i [])
      Edit.each useIdentifier i.operation.identifiers
      useClassical i.classicalFootprint
      let touched : Footprint := { Footprint.empty with qubits := i.qubits, clbits := i.clbits }
      modify (onTop fun top => (top.touch touched).snoc (.record i))
    edit c

end Circuit

end QuantumCircuit
