import QuantumCircuit.BitList
import QuantumCircuit.Classical.Statement
import QuantumCircuit.Gate
import QuantumCircuit.IdentifierTable
import QuantumCircuit.Param.Table

/-!
# Circuits

A circuit is a name, a content and the blocks of the control-flow builders that
are open on it. The content holds the bits, registers, identifiers and records;
a record applies an operation to positions of bits. Control flow has whole
circuits as bodies, whose bits correspond by position to the operands of the
record, and a custom operation may have a circuit as its definition, so circuits
and operations are defined together.

Circuits are equal when their contents are: the name, the open blocks, the
cached duration and the indices kept beside the data do not count.
-/

namespace QuantumCircuit

/-- The bits, registers and captured identifiers that a block touches. Positions
are those of the outermost circuit. -/
structure Footprint where
  qubits : List Nat
  clbits : List Nat
  registers : List ClassicalRegister
  captures : List Identifier

mutual

/-- What a record does. -/
inductive Operation where
  | gate (g : Gate)
  | custom (op : CustomOp)
  /-- One qubit into one clbit. -/
  | measure
  /-- One qubit back to its ground state. -/
  | reset
  /-- A point that nothing is moved across. -/
  | barrier (width : Nat)
  /-- Idle time on one qubit. -/
  | delay (d : Duration)
  | store (s : Store)
  | control (flow : ControlFlow)

/-- An operation that a user defines, with or without a circuit that says what it does. -/
structure CustomOp where
  name : String
  numQubits : Nat
  numClbits : Nat
  params : List Angle
  definition : Option Circuit
  /-- Whether it is a gate. -/
  unitary : Bool

/-- Control flow around bodies. -/
inductive ControlFlow where
  | ifElse (condition : Condition) (trueBody : Circuit) (falseBody : Option Circuit)
  | whileLoop (condition : Condition) (body : Circuit)
  /-- The parameter is bound to the current value inside the body. -/
  | forLoop (indices : LoopIndices) (parameter : Option Parameter) (body : Circuit)
  | switchCase (target : SwitchTarget) (arms : List SwitchArm)
  /-- A body scheduled as one piece. -/
  | box (body : Circuit) (duration : Option Duration)
  /-- A jump spans as many bits as the loop it belongs to. -/
  | jump (j : Jump) (numQubits numClbits : Nat)

/-- A case of a switch. -/
structure SwitchArm where
  labels : List CaseLabel
  body : Circuit

/-- An operation applied to positions of bits. -/
structure Instruction where
  operation : Operation
  qubits : List Nat
  clbits : List Nat
  label : Option String

/-- All that a circuit holds but its name and open blocks. -/
structure Content where
  qubits : BitList .quantum
  clbits : BitList .classical
  records : List Instruction
  /-- The index of parameter uses in the records and the phase. -/
  table : ParameterTable
  phase : Angle
  identifiers : IdentifierTable
  /-- The total duration in device time steps, while it is known. -/
  duration : Option UInt64

/-- A circuit. The open blocks come innermost first. -/
structure Circuit where
  name : String
  content : Content
  blocks : List Block

/-- The body of a control-flow builder that is still open. Operands in it are
positions of the outermost circuit. -/
structure Block where
  footprint : Footprint
  locals : IdentifierTable
  items : List BlockItem
  /-- Why no jump may be made here, if none may. -/
  ban : Option JumpBan

/-- What a block holds: a finished record, or something with a jump in it, which
learns its width only when the loop around it closes. -/
inductive BlockItem where
  | record (i : Instruction)
  | jump (j : Jump)
  | branch (condition : Condition) (trueBlock : Block) (falseBlock : Option Block)
  | dispatch (target : SwitchTarget) (arms : List BlockArm)

/-- A case of a switch whose body has a jump in it, or stands beside one that has. -/
structure BlockArm where
  labels : List CaseLabel
  block : Block

end

namespace Content

/-- The content of an empty circuit. -/
def empty : Content :=
  { qubits := .empty
    clbits := .empty
    records := []
    table := .empty
    phase := .const 0
    identifiers := .empty
    duration := none }

/-- The number of qubits. -/
def numQubits (c : Content) : Nat := c.qubits.size

/-- The number of clbits. -/
def numClbits (c : Content) : Nat := c.clbits.size

/-- The bits of one kind. -/
def bits (c : Content) : (k : BitKind) → BitList k
  | .quantum => c.qubits
  | .classical => c.clbits

/-- The parameters in use, in canonical order. -/
def parameters (c : Content) : List Parameter := c.table.sorted

end Content

namespace Circuit

/-- An empty circuit. -/
def empty (name : String) : Circuit := ⟨name, .empty, []⟩

instance : Inhabited Circuit := ⟨empty ""⟩

/-- Whether a control-flow builder is open. -/
def inScope (c : Circuit) : Bool := !c.blocks.isEmpty

/-- The number of qubits. -/
def numQubits (c : Circuit) : Nat := c.content.numQubits

/-- The number of clbits. -/
def numClbits (c : Circuit) : Nat := c.content.numClbits

/-- The number of qubits and of clbits. -/
def width (c : Circuit) : Nat × Nat := (c.numQubits, c.numClbits)

/-- The parameters in use, in canonical order. -/
def parameters (c : Circuit) : List Parameter := c.content.parameters

/-- The content as a part of the circuit. -/
def contentFocus : Focus Circuit Content := ⟨(·.content), fun d c => { c with content := d }⟩

end Circuit

/-- A record without a label. -/
def Instruction.make (operation : Operation) (qubits clbits : List Nat) : Instruction :=
  ⟨operation, qubits, clbits, none⟩

mutual

/-- Equal operations. -/
def Operation.beq : Operation → Operation → Bool
  | .gate g, .gate g' => g == g'
  | .custom a, .custom b => a.beq b
  | .measure, .measure => true
  | .reset, .reset => true
  | .barrier m, .barrier n => m == n
  | .delay a, .delay b => a == b
  | .store a, .store b => a == b
  | .control a, .control b => a.beq b
  | _, _ => false

/-- Equal custom operations. -/
def CustomOp.beq : CustomOp → CustomOp → Bool
  | ⟨name, nq, nc, params, definition, unitary⟩,
    ⟨name', nq', nc', params', definition', unitary'⟩ =>
    name == name' && nq == nq' && nc == nc' && params == params'
      && Circuit.beqOption definition definition' && unitary == unitary'

/-- Equal control flow. -/
def ControlFlow.beq : ControlFlow → ControlFlow → Bool
  | .ifElse c t f, .ifElse c' t' f' => c == c' && t.beq t' && Circuit.beqOption f f'
  | .whileLoop c b, .whileLoop c' b' => c == c' && b.beq b'
  | .forLoop i p b, .forLoop i' p' b' => i == i' && p == p' && b.beq b'
  | .switchCase t arms, .switchCase t' arms' => t == t' && SwitchArm.beqList arms arms'
  | .box b d, .box b' d' => b.beq b' && d == d'
  | .jump j m n, .jump j' m' n' => j == j' && m == m' && n == n'
  | _, _ => false

/-- Equal cases, in order. -/
def SwitchArm.beqList : List SwitchArm → List SwitchArm → Bool
  | [], [] => true
  | ⟨labels, body⟩ :: rest, ⟨labels', body'⟩ :: rest' =>
    labels == labels' && body.beq body' && SwitchArm.beqList rest rest'
  | _, _ => false

/-- Equal optional circuits. -/
def Circuit.beqOption : Option Circuit → Option Circuit → Bool
  | none, none => true
  | some a, some b => a.beq b
  | _, _ => false

/-- Equal circuits: equal contents. -/
def Circuit.beq : Circuit → Circuit → Bool
  | ⟨_, a, _⟩, ⟨_, b, _⟩ => a.beq b

/-- Equal contents: the same bits, registers, phase, identifiers and records. -/
def Content.beq : Content → Content → Bool
  | ⟨qubits, clbits, records, _, phase, identifiers, _⟩,
    ⟨qubits', clbits', records', _, phase', identifiers', _⟩ =>
    qubits.bits == qubits'.bits && clbits.bits == clbits'.bits
      && qubits.registers == qubits'.registers && clbits.registers == clbits'.registers
      && phase == phase' && identifiers == identifiers' && Instruction.beqList records records'

/-- Equal records, in order. -/
def Instruction.beqList : List Instruction → List Instruction → Bool
  | [], [] => true
  | ⟨op, qs, cs, label⟩ :: rest, ⟨op', qs', cs', label'⟩ :: rest' =>
    op.beq op' && qs == qs' && cs == cs' && label == label' && Instruction.beqList rest rest'
  | _, _ => false

end

instance : BEq Operation := ⟨Operation.beq⟩
instance : BEq Circuit := ⟨Circuit.beq⟩

end QuantumCircuit
