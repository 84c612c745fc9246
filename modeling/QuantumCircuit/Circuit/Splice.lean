import QuantumCircuit.Circuit.Operands
import QuantumCircuit.Circuit.Renaming

/-!
# Planning a composition

Before the records of one circuit are spliced into another, everything about
them is worked out on copies: where each bit goes, what each identifier becomes,
which register of the destination stands for each register that a condition, a
target or a store reads, and what the records look like then. A register that no
register of the destination can stand for gets an alias over the mapped bits.
-/

namespace QuantumCircuit

/-- What an identifier becomes. -/
inductive RemapTarget where
  /-- A new identifier of the same sort and type, under this name. -/
  | named (name : String)
  /-- This identifier, which must have the same sort and type. -/
  | exactly (i : Identifier)
deriving DecidableEq

/-- What identifiers become; an entry for the identifier goes before one for its name. -/
structure IdentifierRemap where
  byName : List (String × RemapTarget)
  byIdentifier : List (Identifier × RemapTarget)

namespace IdentifierRemap

/-- Identifiers stay. -/
def empty : IdentifierRemap := ⟨[], []⟩

/-- Remap the identifier called `source`. -/
def addName (r : IdentifierRemap) (source : String) (target : RemapTarget) : IdentifierRemap :=
  { r with byName := Assoc.insert source target r.byName }

/-- Remap exactly this identifier. -/
def addIdentifier (r : IdentifierRemap) (source : Identifier) (target : RemapTarget) :
    IdentifierRemap :=
  { r with byIdentifier := Assoc.insert source target r.byIdentifier }

/-- The entry for an identifier. -/
def target? (r : IdentifierRemap) (i : Identifier) : Option RemapTarget :=
  match Assoc.find? i r.byIdentifier with
  | some target => some target
  | none => Assoc.find? i.name r.byName

/-- What the identifier becomes; a new one has the given identity. -/
def resolve (r : IdentifierRemap) (i : Identifier) (identity : Identity) :
    Except CircuitError Identifier :=
  match r.target? i with
  | none => .ok i
  | some (.named name) => .ok (if name = i.name then i else i.renamed name identity)
  | some (.exactly target) =>
    if target.sort ≠ i.sort then .error (.identifierSortMismatch i.name i.sort target.sort)
    else if target.type ≠ i.type then .error (.typeMismatch i.name i.type target.type)
    else .ok target

/-- What the identifiers become. The new ones are numbered by their places. -/
def images (r : IdentifierRemap) (stamp : Nat) (identifiers : List Identifier) :
    Except CircuitError Renaming :=
  identifiers.zipIdx.mapM fun (i, serial) => do return (i, ← r.resolve i ⟨stamp, serial⟩)

end IdentifierRemap

/-- How one circuit is composed onto another. -/
structure ComposeOptions where
  /-- The destination qubits of the source's qubits, in order. -/
  qubits : Option (List Nat) := none
  /-- The destination clbits of the source's clbits, in order. -/
  clbits : Option (List Nat) := none
  /-- Put the records before those that are there. -/
  front : Bool := false
  /-- Add the source as one operation. -/
  wrap : Bool := false
  /-- Take the source's captures for identifiers that are there. -/
  inlineCaptures : Bool := false
  /-- What the source's identifiers become. -/
  remap : IdentifierRemap := .empty
  /-- The stamp of identifiers made for new names. -/
  stamp : Nat := 0

/-- Where the bits of the source go. -/
structure Placement where
  qubits : List Nat
  clbits : List Nat
  /-- Whether the source's clbits and classical registers come along, because
  the destination has no clbits. -/
  bringClbits : Bool

/-- Refuse a target that is out of range, or that is in `seen` or comes twice. -/
def checkTargets (kind : BitKind) (destination : Nat) (seen : List Nat) :
    List Nat → Except CircuitError Unit
  | [] => .ok ()
  | t :: rest =>
    if destination ≤ t then .error (.composeTargets kind (.outOfRange t destination))
    else if t ∈ seen then .error (.composeTargets kind (.repeated t))
    else checkTargets kind destination (t :: seen) rest

/-- The targets asked for, or the first positions. -/
def targetPositions (explicit : Option (List Nat)) (source destination : Nat) (kind : BitKind) :
    Except CircuitError (List Nat) :=
  match explicit with
  | none => .ok (List.range source)
  | some targets =>
    if targets.length ≠ source then
      .error (.composeTargets kind (.count source targets.length))
    else do
      checkTargets kind destination [] targets
      return targets

/-- Whether the phase has to be added: it does not evaluate to zero. -/
def ParamExpr.isPhase (e : Angle) : Bool :=
  match e.eval with
  | some x => !(x == 0)
  | none => true

namespace Circuit

/-- Where the bits of `source` go in `c`, if it is small enough, the targets are
good, and neither names nor an open scope stand in the way. -/
def place (c source : Circuit) (o : ComposeOptions) : Except CircuitError Placement := do
  refuseIf (o.front && c.inScope) (.activeScope .composeFront)
  refuseIf (c.numQubits < source.numQubits)
    (.composeWidth .quantum source.numQubits c.numQubits)
  let bring := o.clbits.isNone && !c.inScope && c.numClbits == 0 && 0 < source.numClbits
  refuseIf (!bring && c.numClbits < source.numClbits)
    (.composeWidth .classical source.numClbits c.numClbits)
  let registers := if bring then source.content.clbits.registers else []
  refuseFound (registers.find? fun r => c.content.identifiers.hasName r.name)
    fun r => .duplicateRegister .classical r.name
  let destination := if bring then source.numClbits else c.numClbits
  let qubits ← targetPositions o.qubits source.numQubits c.numQubits .quantum
  let clbits ← targetPositions o.clbits source.numClbits destination .classical
  c.content.table.check source.parameters
  refuseIf (c.inScope && source.content.phase.isPhase) (.activeScope .composePhase)
  return ⟨qubits, clbits, bring⟩

end Circuit

/-- What happens to the identifiers of the source: those added to the content,
and, in an open scope, those used and those declared there. -/
structure IdentifierPlan where
  planned : IdentifierTable
  additions : List (Identifier × IdentifierKind)
  uses : List Identifier
  declarations : List Identifier

namespace IdentifierPlan

/-- Take one identifier of the source, already mapped, into the plan. -/
def step (c source : Circuit) (o : ComposeOptions) (p : Placement) (plan : IdentifierPlan)
    (image : Identifier) (kind : IdentifierKind) : Except CircuitError IdentifierPlan :=
  if kind = .capture ∧ o.inlineCaptures then
    if c.inScope then .ok { plan with uses := plan.uses ++ [image] }
    else if c.content.identifiers.contains image then .ok plan
    else .error (.inlineCaptureMissing image.name)
  else if c.inScope then
    if kind = .declare then .ok { plan with declarations := plan.declarations ++ [image] }
    else .error (.activeScope .composeTopLevel)
  else
    let registerNamed (d : Content) : Bool := (d.clbits.register? image.name).isSome
    if registerNamed c.content || (p.bringClbits && registerNamed source.content) then
      .error (.identifierShadowing image.name)
    else do
      let planned ← plan.planned.added image kind
      return { plan with planned, additions := plan.additions ++ [(image, kind)] }

/-- The plan for all identifiers of the source. -/
def make (c source : Circuit) (o : ComposeOptions) (p : Placement) (m : Renaming) :
    Except CircuitError IdentifierPlan :=
  source.content.identifiers.toList.foldlM
    (fun plan (i, kind) => plan.step c source o p (m.apply i) kind)
    ⟨c.content.identifiers, [], [], []⟩

end IdentifierPlan

/-- What stays the same while the records of the source are remapped. -/
structure LeafMap where
  identifiers : Renaming
  /-- The destination clbits of the source's clbits. -/
  clbits : List (Clbit × Clbit)
  /-- The registers of the destination. -/
  registers : List ClassicalRegister

/-- The registers chosen so far, and the aliases made for them. -/
structure RegisterChoice where
  chosen : List (ClassicalRegister × ClassicalRegister)
  aliases : List ClassicalRegister
  names : NameSequence
  taken : List String

namespace LeafMap

/-- The clbit that stands for a clbit of the source. -/
def clbit (m : LeafMap) (bit : Clbit) : Except CircuitError Clbit :=
  match Assoc.find? bit m.clbits with
  | some image => .ok image
  | none => .error (.missingBit .classical bit.text none)

/-- The register that stands for a register of the source: the one chosen
before, the first of the destination or of the aliases with the mapped bits, or a
new alias over them. -/
def register (m : LeafMap) (r : ClassicalRegister) : Edit RegisterChoice ClassicalRegister := do
  let choice ← get
  match choice.chosen.find? (·.1 == r) with
  | some (_, image) => return image
  | none => do
    let bits ← Edit.ofExcept (r.bits.mapM m.clbit)
    match (m.registers ++ choice.aliases).find? (·.bits == bits) with
    | some image => do
      set { choice with chosen := choice.chosen ++ [(r, image)] }
      return image
    | none => do
      let (name, names) := choice.names.fresh choice.taken
      let image ← Edit.ofExcept (Register.ofBits name bits)
      set
        { chosen := choice.chosen ++ [(r, image)]
          aliases := choice.aliases ++ [image]
          names
          taken := choice.taken ++ [name] : RegisterChoice }
      return image

/-- The leaf that stands for a leaf of the source. -/
def leaf (m : LeafMap) : Expr → Edit RegisterChoice (Option Expr)
  | .clbit bit => do return some (.clbit (← Edit.ofExcept (m.clbit bit)))
  | .register r => do return some (.register (← m.register r))
  | e => pure (m.identifiers.leaf? e)

/-- The operation as it stands in the destination. Clbits and registers are
mapped at its own level, identifiers in the bodies as well. -/
def operation (m : LeafMap) : Operation → Edit RegisterChoice Operation
  | .store s => do return .store (← s.mapLeaves m.leaf)
  | .delay d => do return .delay (← d.mapLeaves m.leaf)
  | .control flow => do
    let mapped ← flow.mapLeaves m.leaf
    if m.identifiers.changesAny then
      let bodies ← Edit.ofExcept (flow.renameBodies m.identifiers)
      return .control (← Edit.ofExcept (mapped.replaceBodies bodies))
    else return .control mapped
  | op => pure op

/-- The records as they stand in the destination. -/
def records (m : LeafMap) (p : Placement) :
    List Instruction → Edit RegisterChoice (List Instruction)
  | [] => pure []
  | i :: rest => do
    let op ← m.operation i.operation
    let moved : Instruction :=
      { i.remapped (fun q => p.qubits.getD q q) (fun b => p.clbits.getD b b) with operation := op }
    return moved :: (← records m p rest)

end LeafMap

/-- A composition worked out: the records to add, and what has to come in with them. -/
structure Splice where
  placement : Placement
  identifiers : IdentifierPlan
  aliases : List ClassicalRegister
  records : List Instruction

/-- Work out how `source` is spliced into `c`. -/
def Circuit.splice (c source : Circuit) (o : ComposeOptions) (p : Placement) :
    Except CircuitError Splice := do
  let images ← o.remap.images o.stamp (source.content.identifiers.toList.map (·.1))
  let plan ← IdentifierPlan.make c source o p images
  let clbits := source.content.clbits.bits
  let targets := if p.bringClbits then clbits else p.clbits.filterMap c.content.clbits.get?
  let registers := (if p.bringClbits then source else c).content.clbits.registers
  let leafMap : LeafMap := ⟨images, clbits.zip targets, registers⟩
  let choice : RegisterChoice :=
    { chosen := []
      aliases := []
      names := .ofStem BitKind.classical.letter
      taken := registers.map (·.name) ++ plan.planned.names }
  match leafMap.records p source.content.records choice with
  | .error e _ => throw e
  | .ok records choice => return ⟨p, plan, choice.aliases, records⟩

end QuantumCircuit
