import QuantumCircuit.Circuit.Metrics
import QuantumCircuit.Report.Value

/-!
# Reports on circuits

How operations, records and whole circuits are shown. The report of a circuit
shows its content, down to the bodies and definitions at every depth, but not
the blocks that are open on it.
-/

namespace QuantumCircuit

mutual

/-- The operation with all that it holds. -/
def Operation.report : Operation → Report
  | .gate g =>
    let angles := if g.angles.isEmpty then [] else [.each ParamExpr.report g.angles]
    .tagged "gate" (.text g.name :: angles)
  | .custom op => op.report
  | .measure => .tagged "measure" []
  | .reset => .tagged "reset" []
  | .barrier width => .tagged "barrier" [.nat width]
  | .delay d => .tagged "delay" [d.report]
  | .store s => .tagged "store" s.report
  | .control flow => flow.report

/-- The custom operation with its definition. -/
def CustomOp.report : CustomOp → Report
  | ⟨name, numQubits, numClbits, params, definition, unitary⟩ =>
    .tagged "custom" [.text name, .nat numQubits, .nat numClbits, .bool unitary,
      .each ParamExpr.report params, Circuit.reportOption definition]

/-- The control flow with its bodies. -/
def ControlFlow.report : ControlFlow → Report
  | .ifElse c t f => .tagged "if_else" [c.report, t.report, Circuit.reportOption f]
  | .whileLoop c b => .tagged "while_loop" [c.report, b.report]
  | .forLoop i p b => .tagged "for_loop" [i.report, .optional Parameter.report p, b.report]
  | .switchCase t arms => .tagged "switch_case" [t.report, .list (SwitchArm.reportList arms)]
  | .box b d => .tagged "box" [.optional Duration.report d, b.report]
  | .jump j numQubits numClbits => .tagged j.name [.nat numQubits, .nat numClbits]

/-- The cases with their bodies. -/
def SwitchArm.reportList : List SwitchArm → List Report
  | [] => []
  | ⟨labels, body⟩ :: rest =>
    .list [.texts (labels.map CaseLabel.text), body.report] :: SwitchArm.reportList rest

/-- The circuit, if there is one. -/
def Circuit.reportOption : Option Circuit → Report
  | none => .null
  | some c => c.report

/-- The circuit. -/
def Circuit.report : Circuit → Report
  | ⟨name, content, _⟩ => .fields (("name", .text name) :: content.report)

/-- The content, field by field. -/
def Content.report : Content → List (String × Report)
  | ⟨qubits, clbits, records, table, phase, identifiers, duration⟩ =>
    [("qubits", .each Bit.report qubits.bits), ("clbits", .each Bit.report clbits.bits),
      ("qregs", .each Register.report qubits.registers),
      ("cregs", .each Register.report clbits.registers), ("idents", identifiers.report),
      ("phase", phase.report), ("params", .each Parameter.report table.sorted),
      ("duration", .optional (fun steps => .text (toString steps)) duration),
      ("data", .list (Instruction.reportList records))]

/-- The records: operation, operands, and the label if there is one. -/
def Instruction.reportList : List Instruction → List Report
  | [] => []
  | ⟨operation, qubits, clbits, label⟩ :: rest =>
    .list ([operation.report, .nats qubits, .nats clbits] ++ (label.map Report.text).toList)
      :: Instruction.reportList rest

end

/-- The record. -/
def Instruction.report (i : Instruction) : Report :=
  .list ([i.operation.report, .nats i.qubits, .nats i.clbits] ++ (i.label.map Report.text).toList)

namespace Operation

/-- Whether it is a standard gate with a parameter left in some angle. -/
def isParameterized : Operation → Bool
  | gate g => g.isParameterized
  | _ => false

/-- All about an operation. -/
def summary (op : Operation) : Report :=
  .fields ([("op", op.report), ("name", .text op.name), ("nq", .nat op.numQubits),
    ("nc", .nat op.numClbits), ("params", .each ParamExpr.report op.params),
    ("directive", .bool op.isDirective), ("gate", .bool op.isGate),
    ("parameterized", .bool op.isParameterized), ("blocks", .nat op.bodies.length),
    ("idents", .each Identifier.report op.identifiers)]
    ++ op.classicalUse.found
    ++ [("cond", .optional Condition.report (op.control?.bind (·.condition?))),
      ("loop_param", .optional Parameter.report (op.control?.bind (·.loopParameter?)))])

/-- What the operation needs beside its operands. -/
def needsReport (op : Operation) : Report :=
  .list (.each Identifier.report op.identifiers :: op.classicalUse.found.map (·.2))

end Operation

/-- All about an instruction on its own. -/
def Instruction.summary (i : Instruction) : Report :=
  .fields [("inst", i.report), ("name", .text i.name), ("directive", .bool i.isDirective)]

/-- An instruction on handles. -/
def HandleInstruction.report (i : HandleInstruction) : Report :=
  .list [i.operation.report, .each Bit.report i.qubits, .each Bit.report i.clbits]

/-- How the ways to treat identifiers in an empty copy are called. -/
def Content.IdentifierMode.name : Content.IdentifierMode → String
  | alike => "Alike"
  | captures => "Captures"
  | drop => "Drop"

/-- The way called so. -/
def Content.IdentifierMode.ofName? (name : String) : Option Content.IdentifierMode :=
  [alike, captures, drop].find? (·.name == name)

namespace Circuit

/-- The sizes of the circuit. -/
def metricsReport (c : Circuit) : Report :=
  .fields [("size", .nat c.size), ("width", .nat c.totalWidth), ("depth", .nat c.depth),
    ("nonlocal", .nat c.numNonlocal),
    ("ops", .each (fun (name, count) => .list [.text name, .nat count]) c.countOps)]

/-- The state of the circuit in short: how many bits, records, parameters and
identifiers, and whether a builder is open. -/
def stateReport (c : Circuit) : Report :=
  let d := c.content
  .list [.nat c.numQubits, .nat c.numClbits, .nat d.records.length, .nat d.table.size,
    .nat d.identifiers.size, .bool c.inScope]

/-- Whether a register is there, and the register of its name. -/
def registerReport {k : BitKind} (c : Circuit) (r : Register k) : Report :=
  let l := c.content.bits k
  .list [.bool (l.hasRegister r), .optional Register.report (l.register? r.name)]

end Circuit

end QuantumCircuit
