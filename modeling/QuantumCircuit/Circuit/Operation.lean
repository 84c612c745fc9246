import QuantumCircuit.Circuit.Basic

/-!
# What operations are made of

Names, arities, parameters, the identifiers and classical bits that an operation
needs from the circuit it stands in, and the checked ways to build control flow.
All bodies of one operation have the same width, and that is its arity.
-/

namespace QuantumCircuit

/-- Refuse a body of another width than the first. -/
def checkSameWidth (operation : String) (first other : Circuit) : Except CircuitError Unit :=
  if first.width = other.width then .ok ()
  else .error (.bodyWidth operation first.width other.width)

/-- Do nothing to a list but check every member, in order. -/
def checkEach {α : Type} (check : α → Except CircuitError Unit) : List α → Except CircuitError Unit
  | [] => .ok ()
  | a :: rest => do
    check a
    checkEach check rest

namespace ControlFlow

/-- The operation name. -/
def name : ControlFlow → String
  | ifElse _ _ _ => "if_else"
  | whileLoop _ _ => "while_loop"
  | forLoop _ _ _ => "for_loop"
  | switchCase _ _ => "switch_case"
  | box _ _ => "box"
  | jump j _ _ => j.name

/-- The bodies, in order. -/
def bodies : ControlFlow → List Circuit
  | ifElse _ t f => t :: f.toList
  | whileLoop _ b => [b]
  | forLoop _ _ b => [b]
  | switchCase _ arms => arms.map (·.body)
  | box b _ => [b]
  | jump _ _ _ => []

/-- The number of qubit operands. -/
def numQubits : ControlFlow → Nat
  | jump _ qubits _ => qubits
  | flow => (flow.bodies.head?.map (·.numQubits)).getD 0

/-- The number of clbit operands. -/
def numClbits : ControlFlow → Nat
  | jump _ _ clbits => clbits
  | flow => (flow.bodies.head?.map (·.numClbits)).getD 0

/-- The predicate of an `if` or a `while`. -/
def condition? : ControlFlow → Option Condition
  | ifElse c _ _ => some c
  | whileLoop c _ => some c
  | _ => none

/-- The parameter that a `for` loop binds. -/
def loopParameter? : ControlFlow → Option Parameter
  | forLoop _ p _ => p
  | _ => none

/-- The identifiers read by the predicate, the target or the duration. -/
def ownIdentifiers : ControlFlow → List Identifier
  | ifElse c _ _ => c.identifiers
  | whileLoop c _ => c.identifiers
  | switchCase t _ => t.identifiers
  | box _ (some d) => d.identifiers
  | _ => []

/-- The identifiers that the operation itself reads, then those that its bodies capture. -/
def identifiers (flow : ControlFlow) : List Identifier :=
  Distinct.union flow.ownIdentifiers
    (flow.bodies.flatMap fun body => body.content.identifiers.ofKind .capture)

/-- The clbits and registers that the predicate or the target reads. -/
def classicalUse : ControlFlow → ClassicalUse
  | ifElse c _ _ => c.classicalUse
  | whileLoop c _ => c.classicalUse
  | switchCase t _ => t.classicalUse
  | _ => .none

/-- Replace leaves of the predicate, the target or the duration; bodies stay. -/
def mapLeaves {m : Type → Type} [Monad m] (f : Expr → m (Option Expr)) :
    ControlFlow → m ControlFlow
  | ifElse c t e => do return ifElse (← c.mapLeaves f) t e
  | whileLoop c b => do return whileLoop (← c.mapLeaves f) b
  | switchCase t arms => do return switchCase (← t.mapLeaves f) arms
  | box b (some d) => do return box b (some (← d.mapLeaves f))
  | flow => pure flow

/-- Put new bodies in, in order; a body without a replacement stays. -/
def withBodies : ControlFlow → List Circuit → ControlFlow
  | ifElse c t f, bodies =>
    match f with
    | none => ifElse c (bodies.headD t) none
    | some e => ifElse c (bodies.headD t) (some (bodies.tail.headD e))
  | whileLoop c b, bodies => whileLoop c (bodies.headD b)
  | forLoop i p b, bodies => forLoop i p (bodies.headD b)
  | switchCase t arms, bodies =>
    switchCase t (List.zipWith (fun arm body => { arm with body := body }) arms bodies)
  | box b d, bodies => box (bodies.headD b) d
  | jump j q c, _ => jump j q c

/-- The same operation around other bodies: as many as before, and as wide. -/
def replaceBodies (flow : ControlFlow) (bodies : List Circuit) : Except CircuitError ControlFlow :=
  if bodies.length ≠ flow.bodies.length then
    .error (.blockCount flow.name flow.bodies.length bodies.length)
  else
    match flow.bodies with
    | [] => .ok flow
    | first :: _ => do
      checkEach (checkSameWidth flow.name first) bodies
      return flow.withBodies bodies

/-- An `if` with or without an `else`. -/
def makeIfElse (condition : Condition) (trueBody : Circuit) (falseBody : Option Circuit) :
    Except CircuitError ControlFlow := do
  condition.validate
  match falseBody with
  | some other => checkSameWidth "if_else" trueBody other
  | none => .ok ()
  return ifElse condition trueBody falseBody

/-- A loop that runs while the condition holds. -/
def makeWhile (condition : Condition) (body : Circuit) : Except CircuitError ControlFlow := do
  condition.validate
  return whileLoop condition body

/-- Refuse a label that is in `seen` or comes twice; answer all labels. -/
def checkLabels (seen : List CaseLabel) : List CaseLabel → Except CircuitError (List CaseLabel)
  | [] => .ok seen
  | label :: rest =>
    if label ∈ seen then .error (.duplicateCaseLabel label) else checkLabels (seen ++ [label]) rest

/-- Refuse repeated labels, and bodies of another width than the first. -/
def checkArms (first : Circuit) (seen : List CaseLabel) : List SwitchArm → Except CircuitError Unit
  | [] => .ok ()
  | arm :: rest => do
    let seen ← checkLabels seen arm.labels
    checkSameWidth "switch_case" first arm.body
    checkArms first seen rest

/-- A switch with labels that occur once each. -/
def makeSwitch (target : SwitchTarget) (arms : List SwitchArm) :
    Except CircuitError ControlFlow := do
  target.validate
  match arms with
  | [] => .ok ()
  | first :: _ => checkArms first.body [] arms
  return switchCase target arms

/-- A box, with or without a duration. -/
def makeBox (body : Circuit) (duration : Option Duration) : Except CircuitError ControlFlow := do
  match duration with
  | some d => d.validate
  | none => .ok ()
  return box body duration

end ControlFlow

namespace CustomOp

/-- A gate without parameters or definition. -/
def gate (name : String) (numQubits : Nat) : CustomOp := ⟨name, numQubits, 0, [], none, true⟩

/-- An operation that need not be unitary, without parameters or definition. -/
def instruction (name : String) (numQubits numClbits : Nat) : CustomOp :=
  ⟨name, numQubits, numClbits, [], none, false⟩

end CustomOp

namespace Operation

/-- The name. -/
def name : Operation → String
  | gate g => g.name
  | custom op => op.name
  | measure => "measure"
  | reset => "reset"
  | barrier _ => "barrier"
  | delay _ => "delay"
  | store _ => "store"
  | control flow => flow.name

/-- The number of qubit operands. -/
def numQubits : Operation → Nat
  | gate g => g.numQubits
  | custom op => op.numQubits
  | measure | reset | delay _ => 1
  | barrier width => width
  | store _ => 0
  | control flow => flow.numQubits

/-- The number of clbit operands. -/
def numClbits : Operation → Nat
  | custom op => op.numClbits
  | measure => 1
  | control flow => flow.numClbits
  | _ => 0

/-- The parameter expressions. -/
def params : Operation → List Angle
  | gate g => g.angles
  | custom op => op.params
  | _ => []

/-- Whether it is a hint for a compiler, and does nothing when run. -/
def isDirective : Operation → Bool
  | barrier _ => true
  | _ => false

/-- Whether it is a unitary gate. -/
def isGate : Operation → Bool
  | gate _ => true
  | custom op => op.unitary
  | _ => false

/-- The control flow, if it is any. -/
def control? : Operation → Option ControlFlow
  | control flow => some flow
  | _ => none

/-- The bodies, in order. -/
def bodies : Operation → List Circuit
  | control flow => flow.bodies
  | _ => []

/-- The identifiers that are read, written or captured. -/
def identifiers : Operation → List Identifier
  | store s => s.identifiers
  | delay d => d.identifiers
  | control flow => flow.identifiers
  | _ => []

/-- The clbits and registers named by conditions, targets and stores. They are
no operands, but must be in the circuit that the operation is in. -/
def classicalUse : Operation → ClassicalUse
  | store s => .append (.ofExpr s.target) (.ofExpr s.value)
  | control flow => flow.classicalUse
  | _ => .none

/-- The free parameters with their slots: the position of the expression, or of
the body. A loop binds its own parameter. -/
def freeParameters : Operation → List (Nat × Parameter)
  | control flow =>
    flow.bodies.zipIdx.flatMap fun (body, slot) =>
      (body.parameters.filter fun p => flow.loopParameter? != some p).map fun p => (slot, p)
  | op =>
    op.params.zipIdx.flatMap fun (e, slot) => e.parameters.map fun p => (slot, p)

end Operation

namespace Instruction

/-- A measurement. -/
def measure (qubit clbit : Nat) : Instruction := .make .measure [qubit] [clbit]

/-- A barrier over the qubits. -/
def barrier (qubits : List Nat) : Instruction := .make (.barrier qubits.length) qubits []

/-- The name of the operation. -/
def name (i : Instruction) : String := i.operation.name

/-- Whether the operation is a directive. -/
def isDirective (i : Instruction) : Bool := i.operation.isDirective

/-- The first operand that came before. Up to eight operands are compared with each
other; of more, those passed are collected. -/
def repeated? (operands : List Nat) : Option Nat :=
  if operands.length ≤ 8 then Distinct.firstRepeatInPlace? operands
  else Distinct.firstRepeat? operands

/-- Refuse an operand that comes twice. -/
def checkUnique (kind : BitKind) (operation : String) (operands : List Nat) :
    Except CircuitError Unit :=
  match repeated? operands with
  | some position => .error (.repeatedOperand kind position operation)
  | none => .ok ()

/-- Refuse a number of operands that is not the arity of the operation. -/
def checkCounts (operation : Operation) (qubits clbits : Nat) : Except CircuitError Unit :=
  if qubits ≠ operation.numQubits then
    .error (.operandCount operation.name .quantum operation.numQubits qubits)
  else if clbits ≠ operation.numClbits then
    .error (.operandCount operation.name .classical operation.numClbits clbits)
  else .ok ()

/-- Refuse operands that are not as many as the operation takes, or not all different. -/
def checkShape (i : Instruction) : Except CircuitError Unit := do
  checkCounts i.operation i.qubits.length i.clbits.length
  checkUnique .quantum i.name i.qubits
  checkUnique .classical i.name i.clbits

/-- The same instruction on other positions. -/
def remapped (i : Instruction) (qubit clbit : Nat → Nat) : Instruction :=
  { i with qubits := i.qubits.map qubit, clbits := i.clbits.map clbit }

end Instruction

/-- An instruction on handles, the form that means the same in every circuit. -/
structure HandleInstruction where
  operation : Operation
  qubits : List Qubit
  clbits : List Clbit

end QuantumCircuit
