import QuantumCircuit.Circuit.Operation

/-!
# Changing the content of a circuit

Bits, registers, identifiers, records and the phase come in through the edits
here, each of which checks everything before it writes. `Content.check` is what
a record has to pass: its operands are there, are as many as the operation takes
and all different, its parameters keep names unique, and the identifiers, clbits
and registers that it names are there as well.
-/

namespace QuantumCircuit.Content

/-- The qubits as a part of the content. -/
def qubitFocus : Focus Content (BitList .quantum) := ⟨(·.qubits), fun l c => { c with qubits := l }⟩

/-- The clbits as a part of the content. -/
def clbitFocus : Focus Content (BitList .classical) :=
  ⟨(·.clbits), fun l c => { c with clbits := l }⟩

/-- The bits of one kind as a part of the content. -/
def bitFocus : (k : BitKind) → Focus Content (BitList k)
  | .quantum => qubitFocus
  | .classical => clbitFocus

/-- The identifiers as a part of the content. -/
def identifierFocus : Focus Content IdentifierTable :=
  ⟨(·.identifiers), fun t c => { c with identifiers := t }⟩

/-- Add a bit that is not there yet, and answer its position. -/
def addBit {k : BitKind} (bit : Bit k) : Edit Content Nat :=
  Edit.within (bitFocus k) (BitList.add bit true)

/-- Add a register. A classical one must not have the name of an identifier. -/
def addRegister : {k : BitKind} → Register k → Edit Content Unit
  | .quantum, r => Edit.within qubitFocus (BitList.addRegister r)
  | .classical, r => do
    let c ← get
    Edit.ofExcept (refuseIf (c.identifiers.hasName r.name) (.duplicateRegister .classical r.name))
    Edit.within clbitFocus (BitList.addRegister r)

/-- Where a bit is. -/
def locate {k : BitKind} (c : Content) (bit : Bit k) : Except CircuitError (Location k) :=
  match (c.bits k).find? bit with
  | some found => .ok found
  | none => .error (.bitNotFound k bit.text)

/-- Refuse an identifier that cannot come in: its table would refuse it, or a
classical register has its name. -/
def checkIdentifier (c : Content) (i : Identifier) (kind : IdentifierKind) :
    Except CircuitError Unit :=
  if (c.clbits.register? i.name).isSome then .error (.identifierShadowing i.name)
  else c.identifiers.check i kind

/-- Add an identifier. -/
def addIdentifier (i : Identifier) (kind : IdentifierKind) : Edit Content Unit := do
  Edit.ofExcept ((← get).checkIdentifier i kind)
  Edit.within identifierFocus (IdentifierTable.add i kind)

/-- Refuse classical registers that are not there. -/
def checkRegister (c : Content) (r : ClassicalRegister) : Except CircuitError Unit :=
  if c.clbits.hasRegister r then .ok () else .error (.registerNotFound r.name)

/-- Refuse operands that no bit has, or that do not suit the operation. -/
def checkOperands (c : Content) (i : Instruction) : Except CircuitError Unit := do
  checkEach c.qubits.checkPosition i.qubits
  checkEach c.clbits.checkPosition i.clbits
  i.checkShape

/-- Refuse identifiers that are neither there nor `pending`. -/
def checkDeclared (c : Content) (pending : List Identifier) (i : Identifier) :
    Except CircuitError Unit :=
  if c.identifiers.contains i || pending.contains i then .ok ()
  else .error (.undeclaredIdentifier i.name)

/-- Refuse a record that the content cannot take, counting `pending` identifiers as declared. -/
def checkWith (c : Content) (i : Instruction) (pending : List Identifier) :
    Except CircuitError Unit := do
  c.checkOperands i
  c.table.check (i.operation.freeParameters.map (·.2))
  checkEach (c.checkDeclared pending) i.operation.identifiers
  let used := i.operation.classicalUse
  checkEach (fun bit => do let _ ← c.clbits.resolve bit (some i.name)) used.clbits
  checkEach c.checkRegister used.registers

/-- Refuse a record that the content cannot take. -/
def check (c : Content) (i : Instruction) : Except CircuitError Unit := c.checkWith i []

/-- The content with a record at the end. The cached duration is gone with the old records. -/
def snoc (c : Content) (i : Instruction) : Content :=
  { c with
    records := c.records ++ [i]
    table := c.table.trackRecord c.records.length i.operation.freeParameters
    duration := none }

/-- Add a record at the end. -/
def push (i : Instruction) : Edit Content Unit :=
  Edit.update fun c => do
    c.check i
    return c.snoc i

/-- The positions of handles, for an operation that needs them. -/
def resolveAll {k : BitKind} (c : Content) (operation : Option String) :
    List (Bit k) → Except CircuitError (List Nat)
  | [] => .ok []
  | bit :: rest => do
    let position ← (c.bits k).resolve bit operation
    return position :: (← resolveAll c operation rest)

/-- The instruction with its handles turned into positions. -/
def instructionOf (c : Content) (i : HandleInstruction) : Except CircuitError Instruction := do
  let qubits ← c.resolveAll (some i.operation.name) i.qubits
  let clbits ← c.resolveAll (some i.operation.name) i.clbits
  return .make i.operation qubits clbits

/-- Add a record given by handles. -/
def append (i : HandleInstruction) : Edit Content Unit := do
  let instruction ← Edit.ofExcept ((← get).instructionOf i)
  push instruction

/-- The record at `index`, with its positions turned back into handles. -/
def handleInstruction? (c : Content) (index : Nat) : Option HandleInstruction :=
  c.records[index]?.map fun i =>
    ⟨i.operation, i.qubits.filterMap c.qubits.get?, i.clbits.filterMap c.clbits.get?⟩

/-- The content with other records and an index built anew. -/
def withRecords (c : Content) (records : List Instruction) : Content :=
  { c with
    records
    table := .build c.phase.parameters (records.map (·.operation.freeParameters))
    duration := none }

/-- Add records before all others. All are checked before any comes in. -/
def insertFront (front : List Instruction) : Edit Content Unit :=
  Edit.update fun c => do
    checkEach c.check front
    c.table.check (front.flatMap fun i => i.operation.freeParameters.map (·.2))
    return c.withRecords (front ++ c.records)

/-- Take the last record away. -/
def pop? (c : Content) : Option (Instruction × Content) :=
  c.records.getLast?.map fun i =>
    (i, { c with
      records := c.records.dropLast
      table := c.table.untrackRecord (c.records.length - 1) i.operation.freeParameters
      duration := none })

/-- Take all records away; bits, registers, identifiers and phase stay. -/
def clear (c : Content) : Content := c.withRecords []

/-- Set the phase. The parameters of the old phase are given up first, so that
the new one may use their names; a refusal takes them back. -/
def setPhase (phase : Angle) : Edit Content Unit := fun c =>
  let phase := phase.normalizedPhase
  let without := c.table.untrackPhase c.phase.parameters
  match without.check phase.parameters with
  | .ok () => .ok () { c with table := without.trackPhase phase.parameters, phase }
  | .error e => .error e { c with table := without.trackPhase c.phase.parameters }

/-- Read the parameters in canonical order. The order is kept for the next time. -/
def listParameters : Edit Content (List Parameter) := fun c =>
  .ok c.parameters { c with table := c.table.remembered }

/-- Note the total duration, or that it is not known. -/
def setDuration (d : Option UInt64) (c : Content) : Content := { c with duration := d }

/-- What becomes of the identifiers in an empty copy. -/
inductive IdentifierMode where
  /-- All are kept as they are. -/
  | alike
  /-- All become captures. -/
  | captures
  /-- None is kept. -/
  | drop
deriving DecidableEq, Repr

/-- The same bits, registers and phase without records. -/
def copyEmpty (c : Content) (mode : IdentifierMode) : Content :=
  { c with
    records := []
    table := ParameterTable.empty.trackPhase c.phase.parameters
    identifiers := match mode with
      | .alike => c.identifiers
      | .captures => c.identifiers.asCaptures
      | .drop => .empty
    duration := none }

end QuantumCircuit.Content
