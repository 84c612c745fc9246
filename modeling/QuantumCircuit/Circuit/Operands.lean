import QuantumCircuit.Circuit.Broadcast
import QuantumCircuit.Circuit.Scope

/-!
# Adding operations

The calls that add gates, measurements, barriers, delays, stores and variables
to the active scope. Operands are given by position, by handle, by register, or
by lists of these, and are broadcast over the operation.
-/

namespace QuantumCircuit

/-- A way to name the bits of one operand slot. -/
inductive BitSpec (k : BitKind) where
  | position (n : Nat)
  | positions (ns : List Nat)
  /-- From the first position up to, but not including, the second. -/
  | range (start stop : Nat)
  | bit (b : Bit k)
  | bits (bs : List (Bit k))
  | register (r : Register k)

namespace Content

/-- The positions themselves, if all are there. -/
def checkedPositions (c : Content) (k : BitKind) (ns : List Nat) :
    Except CircuitError (List Nat) := do
  checkEach (c.bits k).checkPosition ns
  return ns

/-- The positions from `start` up to `stop`, if all are there. The first that is
not is found without listing the others. -/
def checkedRange (c : Content) (k : BitKind) (start stop : Nat) :
    Except CircuitError (List Nat) :=
  let size := (c.bits k).size
  if start < stop ∧ size < stop then .error (.positionOutOfRange k (max start size) size)
  else .ok ((List.range (stop - start)).map (start + ·))

/-- The positions that the specification names, all of which must be there. -/
def resolveSpec {k : BitKind} (c : Content) : BitSpec k → Except CircuitError (List Nat)
  | .position n => c.checkedPositions k [n]
  | .positions ns => c.checkedPositions k ns
  | .range start stop => c.checkedRange k start stop
  | .bit b => c.resolveAll none [b]
  | .bits bs => c.resolveAll none bs
  | .register r => c.resolveAll none r.bits

end Content

namespace Circuit

/-- The instructions that applying the operation to the operand slots comes to. -/
def expand (c : Circuit) (op : Operation) (qubits : List (BitSpec .quantum))
    (clbits : List (BitSpec .classical)) : Except CircuitError (List Instruction) := do
  let qubits ← qubits.mapM c.content.resolveSpec
  let clbits ← clbits.mapM c.content.resolveSpec
  let applications ← op.broadcast qubits clbits
  return applications.map fun (q, b) => .make op q b

/-- Apply an operation to operand slots. All instructions are checked before any is added. -/
def appendOperation (op : Operation) (qubits : List (BitSpec .quantum))
    (clbits : List (BitSpec .classical)) : Edit Circuit Unit := do
  let c ← get
  let instructions ← Edit.ofExcept (c.expand op qubits clbits)
  let check := if c.inScope then c.content.checkOperands else c.content.check
  Edit.ofExcept (checkEach check instructions)
  Edit.each append instructions

/-- Add an instruction given by handles. -/
def appendHandles (i : HandleInstruction) : Edit Circuit Unit := do
  let instruction ← Edit.ofExcept ((← get).content.instructionOf i)
  append instruction

/-- Apply a standard gate. -/
def gate (g : Gate) (qubits : List (BitSpec .quantum)) : Edit Circuit Unit :=
  appendOperation (.gate g) qubits []

/-- Measure qubits into clbits. -/
def measure (qubit : BitSpec .quantum) (clbit : BitSpec .classical) : Edit Circuit Unit :=
  appendOperation .measure [qubit] [clbit]

/-- Reset qubits. -/
def reset (qubit : BitSpec .quantum) : Edit Circuit Unit := appendOperation .reset [qubit] []

/-- Put one barrier over all the qubits named. -/
def barrier (qubits : List (BitSpec .quantum)) : Edit Circuit Unit := do
  let positions ← Edit.ofExcept (qubits.mapM (← get).content.resolveSpec)
  append (.barrier positions.flatten)

/-- Put a barrier over every qubit. -/
def barrierAll : Edit Circuit Unit := do
  append (.barrier (List.range (← get).numQubits))

/-- Leave qubits idle. -/
def delay (d : Duration) (qubit : BitSpec .quantum) : Edit Circuit Unit := do
  Edit.ofExcept d.validate
  appendOperation (.delay d) [qubit] []

/-- Assign while the circuit runs. -/
def store (target value : Expr) : Edit Circuit Unit := do
  let s ← Edit.ofExcept (Store.make target value)
  append (.make (.store s) [] [])

/-- Declare a variable in the active scope and give it a value, which must not
mention the variable itself. -/
def addVar (v : Var) (initial : Expr) : Edit Circuit Unit := do
  let s ← Edit.ofExcept (Store.make (.var v) initial)
  Edit.ofExcept (refuseIf (s.value.identifiers.contains (.var v)) (.undeclaredIdentifier v.name))
  let instruction := Instruction.make (.store s) [] []
  Edit.ofExcept ((← get).checkDeclaration (.var v))
  Edit.ofExcept ((← get).checkAppend instruction [.var v])
  declare (.var v)
  append instruction

/-- Add an identifier that a running circuit is given or takes over. Only at the top level. -/
def addOuter (i : Identifier) (kind : IdentifierKind) : Edit Circuit Unit := do
  Edit.ofExcept (refuseIf (← get).inScope (.activeScope .declareTopLevel))
  Edit.within contentFocus (Content.addIdentifier i kind)

/-- Add new loose bits, and answer their positions. -/
def addLoose (k : BitKind) (count stamp : Nat) : Edit Circuit (List Nat) :=
  (List.range count).mapM fun serial =>
    Edit.within contentFocus (Content.addBit (Bit.loose k ⟨stamp, serial⟩))

/-- The content with a new register of the given size, named by the kind of its bits. -/
def addDefaultRegister (k : BitKind) (size stamp : Nat) (c : Content) : Content :=
  if size = 0 then c
  else
    match (Content.addRegister (Register.make k k.letter size stamp)).finalState c with
    | .ok c => c
    | .error _ => c

/-- A circuit with a register `q` of qubits and a register `c` of clbits, empty ones left out. -/
def withSize (name : String) (numQubits numClbits stamp : Nat) : Circuit :=
  { empty name with
    content := addDefaultRegister .classical numClbits stamp
      (addDefaultRegister .quantum numQubits stamp .empty) }

/-- Measure every qubit, after a barrier, into a new register under the name
`meas`, or `meas0`, `meas1`, … if that is taken. Only at the top level. -/
def measureAll (stamp : Nat) : Edit Circuit Unit :=
  Edit.update fun c => do
    refuseIf c.inScope (.activeScope .measureAll)
    if c.numQubits = 0 then return c
    else do
      let taken := c.content.clbits.registers.map (·.name) ++ c.content.identifiers.names
      let name :=
        if taken.contains "meas" then ((NameSequence.ofStem "meas").fresh taken).1 else "meas"
      let register := Register.make .classical name c.numQubits stamp
      let stage : Edit Content Unit := do
        Content.addRegister register
        Content.push (.barrier (List.range c.numQubits))
        Edit.each
          (fun (clbit, qubit) => do
            let position ← Edit.ofExcept ((← get).clbits.resolve clbit (some "measure"))
            Content.push (.measure qubit position))
          register.bits.zipIdx
      return { c with content := ← stage.finalState c.content }

/-- Take all records of the circuit away. Open blocks keep theirs. -/
def clear (c : Circuit) : Circuit := { c with content := c.content.clear }

/-- The same bits, registers and phase without records or open blocks. -/
def copyEmpty (c : Circuit) (name : Option String) (mode : Content.IdentifierMode) : Circuit :=
  ⟨name.getD c.name, c.content.copyEmpty mode, []⟩

end Circuit

end QuantumCircuit
