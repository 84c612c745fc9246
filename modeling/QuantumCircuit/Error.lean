import QuantumCircuit.Bit
import QuantumCircuit.Control
import QuantumCircuit.Classical.Ty

/-!
# Causes of refusal

Every call that can be refused says why with one of these causes, each a plain
record of what was wrong. `CircuitError.message` is the only place with wording.
-/

namespace QuantumCircuit

/-- Why operand lists cannot be combined. -/
inductive BroadcastFault where
  /-- Some slot is empty. -/
  | emptySlot
  /-- Two slots of different lengths, neither of length one. -/
  | lengths (first second : Nat)
  /-- Slots of different lengths where all must be equal. -/
  | unequal
  /-- So many qubits cannot be measured into so many clbits. -/
  | measured (qubits clbits : Nat)
deriving DecidableEq

/-- What is wrong with the target positions of a composition. -/
inductive TargetFault where
  | count (expected got : Nat)
  | outOfRange (position destination : Nat)
  | repeated (position : Nat)
deriving DecidableEq

/-- Why a circuit is no gate. -/
inductive NotGateCause where
  | clbits (circuit : String) (count : Nat)
  | operation (name : String)
deriving DecidableEq

/-- What cannot be done while a control-flow block is open. -/
inductive ScopeRule where
  | measureAll
  | declareTopLevel
  | composeFront
  | composePhase
  | composeTopLevel
  | composeRegister
  | composed
  | tensor
  | wrap
  | decompose
deriving DecidableEq

/-- Why a call was refused. -/
inductive CircuitError where
  /-- The bit is listed already. -/
  | duplicateBit (kind : BitKind) (bit : String)
  /-- The register name is taken. -/
  | duplicateRegister (kind : BitKind) (name : String)
  /-- The circuit does not list the bit. -/
  | bitNotFound (kind : BitKind) (bit : String)
  /-- The circuit does not list the classical register. -/
  | registerNotFound (name : String)
  /-- An operation refers to a bit that the circuit does not list. -/
  | missingBit (kind : BitKind) (bit : String) (operation : Option String)
  /-- No bit has this position. -/
  | positionOutOfRange (kind : BitKind) (position count : Nat)
  /-- An operand occurs twice. -/
  | repeatedOperand (kind : BitKind) (position : Nat) (operation : String)
  /-- The operation takes another number of operands. -/
  | operandCount (operation : String) (kind : BitKind) (expected got : Nat)
  | broadcast (operation : String) (fault : BroadcastFault)
  /-- The circuit does not use the parameter. -/
  | parameterNotFound (name : String)
  | parameterCount (expected got : Nat)
  /-- Two different parameters share the name. -/
  | parameterNameConflict (name : String)
  | duplicateIdentifier (name : String)
  /-- Another visible thing has the name. -/
  | identifierShadowing (name : String)
  /-- Inputs and captures do not go together. -/
  | inputCaptureConflict
  | undeclaredIdentifier (name : String)
  | identifierSortMismatch (name : String) (expected got : IdentifierSort)
  | typeMismatch (name : String) (expected got : Ty)
  | invalidLvalue (text : String)
  | jumpOutsideLoop (jump : Jump) (ban : JumpBan)
  | activeScope (rule : ScopeRule)
  /-- The number of open blocks changed behind a builder's back. -/
  | scopeMismatch (expected found : Nat)
  | duplicateCaseLabel (label : CaseLabel)
  | inlineCaptureMissing (name : String)
  | composeWidth (kind : BitKind) (source destination : Nat)
  | composeTargets (kind : BitKind) (fault : TargetFault)
  | notAGate (cause : NotGateCause)
  | tooManyBits
  | repeatedRegisterBit (bit : String)
  | stretchInput (name : String)
  | blockCount (operation : String) (blocks replacements : Nat)
  | bodyWidth (operation : String) (first other : Nat × Nat)
  | caseWithoutLabel
  | switchWithoutCase
  | identifiersInWrapped (circuit : String)
  /-- A function that the caller passed in refused. -/
  | rejected (reason : String)
deriving DecidableEq

/-- The fault in words. -/
def BroadcastFault.message : BroadcastFault → String
  | emptySlot => "an operand slot has no qubits"
  | lengths first second =>
    "operand lists of length " ++ toString first ++ " and " ++ toString second
      ++ " cannot be combined"
  | unequal => "operands of gates with three or more qubits must have equal lengths"
  | measured qubits clbits =>
    toString qubits ++ " qubits cannot be measured into " ++ toString clbits ++ " clbits"

/-- The fault in words. -/
def TargetFault.message (kind : BitKind) : TargetFault → String
  | count expected got => "expected " ++ toString expected ++ " targets, got " ++ toString got
  | outOfRange position destination =>
    kind.word ++ " " ++ toString position ++ " is out of range for a destination with "
      ++ toString destination
  | repeated position => kind.word ++ " " ++ toString position ++ " is targeted more than once"

/-- The cause in words. -/
def NotGateCause.message : NotGateCause → String
  | clbits circuit count => "circuit '" ++ circuit ++ "' has " ++ toString count ++ " clbits"
  | operation name => "'" ++ name ++ "' is not a gate"

/-- The rule in words. -/
def ScopeRule.message : ScopeRule → String
  | measureAll => "cannot add a measurement register inside a control-flow scope"
  | declareTopLevel => "inputs and captures can only be declared at the top level"
  | composeFront => "cannot compose to the front of a circuit inside a control-flow scope"
  | composePhase => "cannot add a global phase inside a control-flow scope"
  | composeTopLevel => "inputs and captures can only be added at the top level"
  | composeRegister =>
    "composing needs a new classical register, which cannot be added inside a control-flow scope"
  | composed => "cannot build a new circuit while a control-flow scope is open"
  | tensor => "cannot tensor circuits while a control-flow scope is open"
  | wrap => "cannot wrap a circuit while a control-flow scope is open"
  | decompose => "cannot decompose while a control-flow scope is open"

namespace CircuitError

private def quoted (s : String) : String := "'" ++ s ++ "'"

private def pairText (p : Nat × Nat) : String :=
  "(" ++ toString p.1 ++ ", " ++ toString p.2 ++ ")"

/-- The cause in words. -/
def message : CircuitError → String
  | duplicateBit kind bit => kind.word ++ " " ++ bit ++ " is already present in the circuit"
  | duplicateRegister kind name =>
    kind.registerWord ++ " name " ++ quoted name ++ " already exists in the circuit"
  | bitNotFound kind bit => kind.word ++ " " ++ bit ++ " not found in circuit"
  | registerNotFound name =>
    BitKind.classical.registerWord ++ " " ++ name ++ " not found in circuit"
  | missingBit kind bit operation =>
    let context := match operation with
      | some name => " (operation: " ++ name ++ ")"
      | none => ""
    kind.word ++ " " ++ bit ++ " is not in the circuit" ++ context
  | positionOutOfRange kind position count =>
    kind.word ++ " index " ++ toString position ++ " out of range for a circuit with "
      ++ toString count ++ " " ++ kind.word ++ "s"
  | repeatedOperand kind position operation =>
    "duplicate " ++ kind.word ++ " " ++ kind.positionText position ++ " in operands of "
      ++ quoted operation
  | operandCount operation kind expected got =>
    "operation " ++ quoted operation ++ " expects " ++ toString expected ++ " " ++ kind.word
      ++ " argument(s), got " ++ toString got
  | broadcast operation fault =>
    "cannot broadcast arguments of " ++ quoted operation ++ ": " ++ fault.message
  | parameterNotFound name =>
    "cannot bind parameter " ++ quoted name ++ ": not present in the circuit"
  | parameterCount expected got =>
    "mismatching number of values and parameters: expected " ++ toString expected ++ ", got "
      ++ toString got
  | parameterNameConflict name => "name conflict on adding parameter " ++ quoted name
  | duplicateIdentifier name =>
    "identifier " ++ quoted name ++ " is already present in the circuit"
  | identifierShadowing name =>
    "cannot add " ++ quoted name ++ " as its name shadows an existing identifier"
  | inputCaptureConflict =>
    "circuits with input variables cannot be enclosed, so they cannot be closures"
  | undeclaredIdentifier name =>
    "identifier " ++ quoted name ++ " is not present in this circuit or any enclosing scope"
  | identifierSortMismatch name expected got =>
    "identifier " ++ quoted name ++ " is a " ++ got.word ++ ", expected a " ++ expected.word
  | typeMismatch name expected got =>
    "mismatched types for " ++ quoted name ++ ": " ++ quoted expected.text ++ " cannot become "
      ++ quoted got.text
  | invalidLvalue text => "invalid lvalue: " ++ text
  | jumpOutsideLoop jump ban => quoted jump.name ++ " is not valid here: " ++ ban.text
  | activeScope rule => rule.message
  | scopeMismatch expected found =>
    "control-flow scope mismatch: expected depth " ++ toString expected ++ ", found "
      ++ toString found
  | duplicateCaseLabel label => "duplicate case label " ++ label.text
  | inlineCaptureMissing name =>
    "variable " ++ quoted name
      ++ " to be inlined is not in the base circuit; use `inline_captures = false` to add it"
  | composeWidth kind source destination =>
    "trying to compose with another circuit which has more " ++ kind.word ++ "s ("
      ++ toString source ++ ") than the destination (" ++ toString destination ++ ")"
  | composeTargets kind fault =>
    "invalid " ++ kind.word ++ " targets for compose: " ++ fault.message kind
  | notAGate cause => "circuit cannot be converted to a gate: " ++ cause.message
  | tooManyBits => "too many bits in circuit"
  | repeatedRegisterBit bit => "register bits must not be duplicated (" ++ bit ++ ")"
  | stretchInput name => "stretch " ++ quoted name ++ " cannot be an input"
  | blockCount operation blocks replacements =>
    quoted operation ++ " has " ++ toString blocks ++ " blocks, got " ++ toString replacements
      ++ " replacements"
  | bodyWidth operation first other =>
    "bodies of " ++ quoted operation ++ " must have the same width: " ++ pairText first ++ " vs "
      ++ pairText other
  | caseWithoutLabel => "a switch case needs at least one label"
  | switchWithoutCase => "switch needs at least one case"
  | identifiersInWrapped circuit =>
    "circuit " ++ quoted circuit ++ " has real-time identifiers and cannot be wrapped"
  | rejected reason => reason

/-- The family that the cause belongs to. -/
def family : CircuitError → String
  | duplicateBit .. => "DuplicateBit"
  | duplicateRegister .. => "DuplicateName"
  | bitNotFound .. | registerNotFound .. => "NotFound"
  | missingBit .. => "Resource"
  | positionOutOfRange .quantum .. => "QubitIndexOutOfRange"
  | positionOutOfRange .classical .. => "ClbitIndexOutOfRange"
  | repeatedOperand .. => "DuplicateOperand"
  | operandCount .. => "ArgumentCount"
  | broadcast .. => "Broadcast"
  | parameterNotFound .. => "ParameterNotFound"
  | parameterCount .. => "ParameterCountMismatch"
  | parameterNameConflict .. => "ParameterNameConflict"
  | duplicateIdentifier .. => "DuplicateIdentifier"
  | identifierShadowing .. => "IdentifierShadowing"
  | inputCaptureConflict => "InputCaptureConflict"
  | undeclaredIdentifier .. => "UndeclaredIdentifier"
  | identifierSortMismatch .. => "IdentifierKindMismatch"
  | typeMismatch .. => "TypeMismatch"
  | invalidLvalue .. => "InvalidLvalue"
  | jumpOutsideLoop .. => "JumpOutsideLoop"
  | activeScope .. => "ActiveScope"
  | scopeMismatch .. => "ScopeMismatch"
  | duplicateCaseLabel .. => "DuplicateCaseLabel"
  | inlineCaptureMissing .. => "InlineCaptureMissing"
  | composeWidth .. => "ComposeWidth"
  | composeTargets .. => "ComposeTargets"
  | notAGate .. => "NotAGate"
  | tooManyBits | repeatedRegisterBit .. | stretchInput .. | blockCount .. | bodyWidth ..
  | caseWithoutLabel | switchWithoutCase | identifiersInWrapped .. | rejected .. => "Invalid"

end CircuitError

/-- Refuse if the condition holds. -/
def refuseIf (condition : Bool) (cause : CircuitError) : Except CircuitError Unit :=
  if condition then .error cause else .ok ()

/-- Refuse on account of what was found, if anything was. -/
def refuseFound {α : Type} (found : Option α) (cause : α → CircuitError) :
    Except CircuitError Unit :=
  match found with
  | some a => .error (cause a)
  | none => .ok ()

end QuantumCircuit
