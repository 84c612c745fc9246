import QuantumCircuit.Circuit.Block
import QuantumCircuit.Circuit.Operands

/-!
# Control-flow builders

A builder opens a block on the circuit, runs its body, in which every call adds
to the block, then closes the block and adds one control-flow record to the
scope around it. The record spans only the bits that its bodies touch and its
condition reads. A branch with a jump in it is kept open as an item of the block
around it until the loop closes.

A body is an edit of any state that holds the circuit. Whatever way it ends, the
blocks that it left open are closed, and a refused body leaves no block.
-/

namespace QuantumCircuit

namespace Block

/-- A block that already touches what the condition around it reads. -/
def seeded (c : Content) (u : ClassicalUse) (ban : Option JumpBan) :
    Except CircuitError Block := do
  let positions ← c.resolveAll none u.allClbits
  return (Block.empty ban).touch
    { Footprint.empty with clbits := positions, registers := u.registers }

/-- All that the branches of an `if` touch. -/
def branchSpan (t : Block) (f : Option Block) : Footprint :=
  match f with
  | some f => t.span.union f.span
  | none => t.span

/-- The body that the block becomes, if there is one. -/
def closeOption (root : Content) (f : Footprint) (role : BodyRole) :
    Option Block → Except CircuitError (Option Circuit)
  | none => .ok none
  | some b => do return some (← b.close root f role)

/-- Whether something in the block waits for a loop to close. -/
def awaitsLoop (b : Block) : Bool :=
  b.items.any fun
    | .record _ => false
    | _ => true

end Block

/-- The cases of a switch so far, and the block that each case starts from. -/
structure SwitchCases where
  template : Block
  arms : List BlockArm

namespace Circuit

/-- Close the innermost blocks until `depth` are left. -/
def truncate (depth : Nat) (c : Circuit) : Circuit :=
  { c with blocks := c.blocks.drop (c.blocks.length - depth) }

/-- Note uses of clbits, registers and identifiers by the head of a builder. -/
def useInScope (u : ClassicalUse) (identifiers : List Identifier) : Edit Circuit Unit := do
  useClassical u
  Edit.each useIdentifier identifiers

/-- What forbids jumps in a branch that is opened here: what forbids them around
it, and outside every block that there is no loop. -/
def branchBan (c : Circuit) : Option JumpBan :=
  match c.blocks with
  | [] => some .outsideLoop
  | top :: _ => top.ban

/-- Note what a condition reads, and answer the block that its branches start from. -/
def openBranch (condition : Condition) : Edit Circuit Block := do
  Edit.ofExcept condition.validate
  useInScope condition.classicalUse condition.identifiers
  let c ← get
  Edit.ofExcept (Block.seeded c.content condition.classicalUse c.branchBan)

/-- Note what the condition of a loop reads, and answer the block of its body. -/
def openLoop (condition : Condition) : Edit Circuit Block := do
  Edit.ofExcept condition.validate
  useInScope condition.classicalUse condition.identifiers
  Edit.ofExcept (Block.seeded (← get).content condition.classicalUse none)

/-- Note what a switch dispatches on, and answer the block that its cases start from. -/
def openSwitch (target : SwitchTarget) : Edit Circuit Block := do
  Edit.ofExcept target.validate
  useInScope target.classicalUse target.identifiers
  let c ← get
  Edit.ofExcept (Block.seeded c.content target.classicalUse c.branchBan)

/-- Note what the duration of a box reads, and answer the block of its body. -/
def openBox : Option Duration → Edit Circuit Block
  | none => pure (Block.empty (some .insideBox))
  | some d => do
    Edit.ofExcept d.validate
    useInScope .none d.identifiers
    return Block.empty (some .insideBox)

/-- Add finished control flow to the scope, over the bits in `f`. -/
def appendBuilt (flow : ControlFlow) (f : Footprint) : Edit Circuit Unit :=
  append (.make (.control flow) f.qubits f.clbits)

/-- Add an item that waits for the loop around it to close. -/
def appendWaiting (item : BlockItem) : Edit Circuit Unit := fun c =>
  match c.blocks with
  | [] => .error (.jumpOutsideLoop .leave .outsideLoop) c
  | _ :: _ => .ok () (c.onTop (·.snoc item))

/-- Close blocks over the bits in `span`, and add what `make` makes of them to the
scope around them. -/
def closeOver (span : Footprint)
    (make : Content → Footprint → Except CircuitError ControlFlow) : Edit Circuit Unit := do
  let flow ← Edit.ofExcept (make (← get).content span.sorted)
  appendBuilt flow span.sorted

/-- Close the branches of an `if`. -/
def closeIf (condition : Condition) (t : Block) (f : Option Block) : Edit Circuit Unit :=
  if t.awaitsLoop || f.any (·.awaitsLoop) then appendWaiting (.branch condition t f)
  else
    closeOver (Block.branchSpan t f) fun root span => do
      let trueBody ← t.close root span .ifBody
      let falseBody ← Block.closeOption root span .elseBody f
      ControlFlow.makeIfElse condition trueBody falseBody

/-- Close the body of a loop or a box, and make the operation around it. -/
def closeBody (role : BodyRole) (make : Circuit → Except CircuitError ControlFlow)
    (block : Block) : Edit Circuit Unit :=
  closeOver block.span fun root span => do make (← block.close root span role)

/-- Close the cases of a switch. -/
def closeSwitch (target : SwitchTarget) (arms : List BlockArm) : Edit Circuit Unit := do
  Edit.ofExcept (refuseIf arms.isEmpty .switchWithoutCase)
  if arms.any (·.block.awaitsLoop) then appendWaiting (.dispatch target arms)
  else
    closeOver (BlockArm.spanList .empty arms) fun root span => do
      ControlFlow.makeSwitch target (← BlockArm.closeList root span arms)

/-- Add a jump: to the open block, or, when none is open, over every bit of the circuit. -/
def jump (j : Jump) : Edit Circuit Unit := fun c =>
  match c.blocks with
  | [] =>
    let flow := ControlFlow.jump j c.numQubits c.numClbits
    Edit.within contentFocus
      (Content.push (.make (.control flow) (List.range c.numQubits) (List.range c.numClbits))) c
  | top :: _ =>
    match top.ban with
    | some ban => .error (.jumpOutsideLoop j ban) c
    | none => .ok () (c.onTop (·.snoc (.jump j)))

end Circuit

namespace Builder

variable {σ : Type} (at_ : Focus σ Circuit)

/-- Run a body inside a new block, and answer the block. -/
def runBlock (block : Block) (body : Edit σ Unit) : Edit σ Block := fun s =>
  let c := at_.get s
  let depth := c.blocks.length
  match body (at_.set { c with blocks := block :: c.blocks } s) with
  | .error e s => .error e (at_.set ((at_.get s).truncate depth) s)
  | .ok () s =>
    let c := at_.get s
    if c.blocks.length = depth + 1 then
      match c.blocks with
      | top :: outer => .ok top (at_.set { c with blocks := outer } s)
      | [] => .error (.scopeMismatch (depth + 1) 0) s
    else .error (.scopeMismatch (depth + 1) c.blocks.length) (at_.set (c.truncate depth) s)

/-- Do `body` only if the condition holds. -/
def ifTest (condition : Condition) (body : Edit σ Unit) : Edit σ Unit := do
  let template ← Edit.within at_ (Circuit.openBranch condition)
  let block ← runBlock at_ template body
  Edit.within at_ (Circuit.closeIf condition block none)

/-- Do one body if the condition holds, and the other if not. -/
def ifElse (condition : Condition) (trueBody falseBody : Edit σ Unit) : Edit σ Unit := do
  let template ← Edit.within at_ (Circuit.openBranch condition)
  let t ← runBlock at_ template trueBody
  let f ← runBlock at_ template falseBody
  Edit.within at_ (Circuit.closeIf condition t (some f))

/-- Repeat `body` while the condition holds. -/
def whileLoop (condition : Condition) (body : Edit σ Unit) : Edit σ Unit := do
  let template ← Edit.within at_ (Circuit.openLoop condition)
  let block ← runBlock at_ template body
  Edit.within at_ (Circuit.closeBody .whileBody (ControlFlow.makeWhile condition) block)

/-- Do `body` once for every index, with the parameter bound to it. -/
def forLoop (indices : LoopIndices) (parameter : Option Parameter) (body : Edit σ Unit) :
    Edit σ Unit := do
  let block ← runBlock at_ (Block.empty none) body
  Edit.within at_
    (Circuit.closeBody .forBody (fun body => .ok (.forLoop indices parameter body)) block)

/-- Schedule `body` as one piece, with or without a duration. -/
def box (duration : Option Duration) (body : Edit σ Unit) : Edit σ Unit := do
  let template ← Edit.within at_ (Circuit.openBox duration)
  let block ← runBlock at_ template body
  Edit.within at_ (Circuit.closeBody .boxBody (ControlFlow.makeBox · duration) block)

/-- The first label that is taken: by an earlier case, or earlier in the list. -/
def takenLabel? (cases : SwitchCases) (labels : List CaseLabel) : Option CaseLabel :=
  Distinct.firstRepeatAfter? (cases.arms.flatMap (·.labels)) labels

/-- Add a case for any of the labels. A refused case adds nothing. -/
def switchCase (labels : List CaseLabel) (body : Edit σ Unit) (cases : SwitchCases) :
    Edit σ SwitchCases := do
  Edit.ofExcept (refuseIf labels.isEmpty .caseWithoutLabel)
  Edit.ofExcept (refuseFound (takenLabel? cases labels) .duplicateCaseLabel)
  let block ← runBlock at_ cases.template body
  return { cases with arms := cases.arms ++ [⟨labels, block⟩] }

/-- Dispatch on the target; `cases` adds the cases one after another. -/
def switch (target : SwitchTarget) (cases : SwitchCases → Edit σ SwitchCases) : Edit σ Unit := do
  let template ← Edit.within at_ (Circuit.openSwitch target)
  let collected ← cases ⟨template, []⟩
  Edit.within at_ (Circuit.closeSwitch target collected.arms)

end Builder

end QuantumCircuit
