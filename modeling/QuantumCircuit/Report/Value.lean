import QuantumCircuit.BitList
import QuantumCircuit.Classical.Statement
import QuantumCircuit.IdentifierTable
import QuantumCircuit.Param.Expr
import QuantumCircuit.Param.Table
import QuantumCircuit.Report.Tree
import QuantumCircuit.Serial.Tree

/-!
# Reports on values

How bits, registers, identifiers, parameters, expressions and tables are shown.
`report` is the short form that stands inside larger reports; `summary` answers
everything one can ask about a value on its own.
-/

namespace QuantumCircuit

/-- A written-out tree as a report: whole numbers as texts, identities by bare labels. -/
def Serial.Tree.report : Serial.Tree → Report
  | null => .null
  | bool b => .bool b
  | int n => .text (toString n)
  | float x => .number x
  | text s => .text s
  | identity i => .label .bare i ""
  | list items => .list (reportEach items)
  | record fields => .fields (reportFields fields)
where
  /-- The reports of a list. -/
  reportEach : List Serial.Tree → List Report
    | [] => []
    | t :: rest => t.report :: reportEach rest
  /-- The reports of the fields. -/
  reportFields : List (String × Serial.Tree) → List (String × Report)
    | [] => []
    | (name, t) :: rest => (name, t.report) :: reportFields rest

namespace Bit

/-- The label of a bit; an owned one ends in its place. -/
def report {k : BitKind} (b : Bit k) : Report :=
  let kind := match k with
    | .quantum => LabelKind.qubit
    | .classical => .clbit
  .label kind b.identity (if b.isLoose then "" else ":" ++ b.text)

/-- All about a bit. -/
def summary {k : BitKind} (b : Bit k) : Report :=
  .fields [("bit", b.report), ("loose", .bool b.isLoose), ("display", .text b.text),
    ("debug", .text b.describe)]

end Bit

namespace Register

variable {k : BitKind}

/-- Name, bits, and whether it made them. -/
def report (r : Register k) : Report :=
  .list [.text r.name, .each Bit.report r.bits, .bool r.owning]

/-- All about a register. -/
def summary (r : Register k) : Report :=
  .fields [("reg", r.report), ("len", .nat r.size), ("empty", .bool r.bits.isEmpty),
    ("display", .text r.name), ("debug", .text r.describe)]

end Register

namespace Location

/-- The position, and the places in registers. -/
def report {k : BitKind} (l : Location k) : Report :=
  .list [.nat l.position, .each (fun (r, i) => .list [.text r.name, .nat i]) l.registers]

end Location

namespace BitList

variable {k : BitKind}

/-- All about a bit list. -/
def summary (l : BitList k) : Report :=
  .fields [("len", .nat l.size), ("empty", .bool l.bits.isEmpty), ("bits", .each Bit.report l.bits),
    ("nregs", .nat l.registers.length), ("regs", .each Register.report l.registers)]

/-- Whether a bit is listed, and where. -/
def findReport (l : BitList k) (b : Bit k) : Report :=
  .list [.bool (l.contains b), .optional .nat (l.indexOf? b), .optional Location.report (l.find? b)]

end BitList

namespace Identifier

/-- The label of an identifier, with its name, and its type if it is a variable. -/
def report : Identifier → Report
  | var v => .label .var v.identity (":" ++ v.name ++ ":" ++ v.type.text)
  | stretch s => .label .stretch s.identity (":" ++ s.name)

/-- All about an identifier. -/
def summary (i : Identifier) : Report :=
  .fields [("id", i.report), ("kind", .text i.sort.word), ("type", .text i.type.text),
    ("display", .text i.name)]

/-- What is found under a name: as anything, as a variable, as a stretch. -/
def found (i : Option Identifier) : List (String × Report) :=
  [("any", .optional report i), ("var", .optional report (i.filter (·.sort = .var))),
    ("stretch", .optional report (i.filter (·.sort = .stretch)))]

end Identifier

namespace IdentifierKind

/-- How a kind of identifier is called in reports. -/
def name : IdentifierKind → String
  | input => "Input"
  | capture => "Capture"
  | declare => "Declare"

/-- The kind called so. -/
def ofName? (name : String) : Option IdentifierKind :=
  [input, capture, declare].find? (·.name == name)

/-- How a kind of identifier is shown. -/
def report (kind : IdentifierKind) : Report := .text kind.name

end IdentifierKind

namespace IdentifierTable

/-- The identifiers with their kinds. -/
def report (t : IdentifierTable) : Report :=
  .each (fun (i, kind) => .list [i.report, kind.report]) t.toList

/-- The counts, from the total on. -/
def counts (t : IdentifierTable) : Report :=
  .nats [t.size, t.inputVars, t.capturedVars, t.capturedStretches, t.captures, t.declaredVars,
    t.declaredStretches]

/-- All about a table. -/
def summary (t : IdentifierTable) : Report :=
  .fields [("all", t.report), ("empty", .bool t.isEmpty), ("counts", t.counts)]

/-- The identifiers of one kind, all together and by sort. -/
def kindSummary (t : IdentifierTable) (kind : IdentifierKind) : Report :=
  let members := t.ofKind kind
  let ofSort (sort : IdentifierSort) : Report :=
    .each Identifier.report (members.filter (·.sort = sort))
  .fields [("all", .each Identifier.report members), ("vars", ofSort .var),
    ("stretches", ofSort .stretch)]

/-- What the table has under a name. -/
def lookupReport (t : IdentifierTable) (name : String) : Report :=
  .fields (Identifier.found (t.get? name) ++ [("named", .bool (t.hasName name))])

end IdentifierTable

namespace Parameter

/-- The label of a parameter, with its name, and its place if it is in a vector. -/
def report (p : Parameter) : Report :=
  let place := match p.element with
    | some e => "@" ++ e.vector ++ "." ++ toString e.index
    | none => ""
  .label .parameter p.identity (":" ++ p.name ++ place)

/-- All about a parameter. -/
def summary (p : Parameter) : Report :=
  .fields [("p", p.report), ("display", .text p.name), ("debug", .text p.describe)]

end Parameter

/-- All about a parameter vector. -/
def ParameterVector.summary (v : ParameterVector) : Report :=
  .fields [("name", .text v.name), ("len", .nat v.elements.length),
    ("empty", .bool v.elements.isEmpty), ("params", .each Parameter.report v.elements)]

namespace ParamExpr

/-- The tree. -/
def report : ParamExpr Float → Report
  | const x => .tagged "const" [.number x]
  | sym p => .tagged "sym" [p.report]
  | pi => .tagged "pi" []
  | neg a => .tagged "neg" [a.report]
  | add a b => .tagged "add" [a.report, b.report]
  | sub a b => .tagged "sub" [a.report, b.report]
  | mul a b => .tagged "mul" [a.report, b.report]
  | div a b => .tagged "div" [a.report, b.report]

/-- All about a parameter expression. -/
def summary (e : ParamExpr Float) : Report :=
  .fields [("symbolic", .bool e.isSymbolic), ("f64", .optional .number e.eval),
    ("params", .each Parameter.report e.parameters), ("simplified", e.simplify.report),
    ("same", .bool (e == e.simplify))]

end ParamExpr

namespace ParameterTable

/-- The number of parameters, whether there are none, and the parameters in canonical order. -/
def report (t : ParameterTable) : Report :=
  .list [.nat t.size, .bool t.uses.isEmpty, .each Parameter.report t.sorted]

/-- The place of a use; the phase comes before all records. -/
def useKey : ParameterUse → List Int
  | .phase => [-1, -1]
  | .record index slot => [index, slot]

/-- Whether the first list of numbers comes before the second in the order of words, or is it. -/
def wordLe : List Int → List Int → Bool
  | [], _ => true
  | _ :: _, [] => false
  | a :: rest, b :: others => if a = b then wordLe rest others else a < b

/-- The uses of a parameter in order. -/
def usesReport (t : ParameterTable) (p : Parameter) : Report :=
  .optional
    (fun sites =>
      .each (.each .count) (Sorting.sort wordLe (sites.map useKey)))
    (t.uses? p)

end ParameterTable

namespace Value

/-- The literal with its sort. -/
def report : Value → Report
  | bool b => .tagged "bool" [.bool b]
  | uint n => .tagged "uint" [.text (toString n)]
  | float x => .tagged "float" [.number x]

/-- All about a literal, and which of the types it fits. -/
def summary (v : Value) (types : List Ty) : Report :=
  .fields [("natural", .text v.naturalType.text), ("display", .text v.text),
    ("fits", .each (fun t => .bool (v.fits t)) types)]

end Value

/-- How a unary operator is called in reports. -/
def UnaryOp.name : UnaryOp → String
  | bitNot => "BitNot"
  | logicNot => "LogicNot"

/-- How a binary operator is called in reports. -/
def BinaryOp.name : BinaryOp → String
  | bitAnd => "BitAnd" | bitOr => "BitOr" | bitXor => "BitXor"
  | logicAnd => "LogicAnd" | logicOr => "LogicOr"
  | equal => "Equal" | notEqual => "NotEqual"
  | less => "Less" | lessEqual => "LessEqual"
  | greater => "Greater" | greaterEqual => "GreaterEqual"
  | add => "Add" | sub => "Sub" | mul => "Mul" | div => "Div"

/-- The unary operator called so. -/
def UnaryOp.ofName? (name : String) : Option UnaryOp :=
  [bitNot, logicNot].find? (·.name == name)

/-- The binary operator called so. -/
def BinaryOp.ofName? (name : String) : Option BinaryOp :=
  [bitAnd, bitOr, bitXor, logicAnd, logicOr, equal, notEqual, less, lessEqual, greater,
    greaterEqual, add, sub, mul, div].find? (·.name == name)

namespace ClassicalUse

/-- The clbits and the registers. -/
def found (u : ClassicalUse) : List (String × Report) :=
  [("clbits", .each Bit.report u.clbits), ("cregs", .each Register.report u.registers)]

end ClassicalUse

namespace Expr

/-- The tree, with the types of inner nodes. -/
def report : Expr → Report
  | var v => .tagged "var" [(Identifier.var v).report]
  | stretch s => .tagged "stretch" [(Identifier.stretch s).report]
  | clbit c => .tagged "clbit" [c.report]
  | register r => .tagged "creg" [r.report]
  | value v t => .tagged "value" [v.report, .text t.text]
  | unary op e t => .tagged "un" [.text op.name, e.report, .text t.text]
  | binary op l r t => .tagged "bin" [.text op.name, l.report, r.report, .text t.text]
  | cast e t i => .tagged "cast" [e.report, .text t.text, .bool i]
  | index e i t => .tagged "index" [e.report, i.report, .text t.text]

/-- All about an expression. -/
def summary (e : Expr) : Report :=
  .fields ([("tree", e.report), ("type", .text e.type.text), ("display", .text e.text),
    ("lvalue", .bool e.isLvalue), ("idents", .each Identifier.report e.identifiers)]
    ++ (ClassicalUse.ofExpr e).found)

end Expr

namespace Condition

/-- The condition. -/
def report : Condition → Report
  | clbit c v => .tagged "clbit" [c.report, .bool v]
  | register r v => .tagged "creg" [r.report, .text (toString v)]
  | expr e => .tagged "expr" [e.report]

/-- All about a condition. -/
def summary (c : Condition) : Report :=
  .fields (("cond", c.report) :: c.classicalUse.found
    ++ [("idents", .each Identifier.report c.identifiers)])

end Condition

/-- The target. -/
def SwitchTarget.report : SwitchTarget → Report
  | clbit c => .tagged "clbit" [c.report]
  | register r => .tagged "creg" [r.report]
  | expr e => .tagged "expr" [e.report]

/-- The duration. -/
def Duration.report : Duration → Report
  | dt steps => .tagged "dt" [.text (toString steps)]
  | expr e => .tagged "expr" [e.report]

/-- Both sides. -/
def Store.report (s : Store) : List Report := [s.target.report, s.value.report]

/-- The indices. -/
def LoopIndices.report : LoopIndices → Report
  | range start stop step => .fields [("range", .texts ([start, stop, step].map toString))]
  | values list => .texts (list.map toString)

end QuantumCircuit
