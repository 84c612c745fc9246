import QuantumCircuit.Proofs.Valuing

/-!
# Assignments one after another

Two assignments of numbers, one after the other, touch different records at different times:
the second passes over records that the first left without parameters, and folds nothing in
records that the first had passed over. They make the same circuit as one assignment of both
bindings together, up to the order in which the indices have their entries
(`Content.Everywhere.inTurn`). So the order of the two does not matter
(`Circuit.Reachable.assign_in_turn`).

`Content.unindexed` forgets the index of a content and of all circuits inside it, and nothing
else. What is forgotten is determined by what is left, but for that order.
-/

namespace QuantumCircuit

/-! ## Without indices -/

mutual

/-- The operation without the indices of the circuits in it. -/
def Operation.unindexed : Operation → Operation
  | .gate g => .gate g
  | .custom op => .custom op.unindexed
  | .measure => .measure
  | .reset => .reset
  | .barrier width => .barrier width
  | .delay d => .delay d
  | .store a => .store a
  | .control flow => .control flow.unindexed

/-- The custom operation without the indices in its definition. -/
def CustomOp.unindexed : CustomOp → CustomOp
  | ⟨name, numQubits, numClbits, params, definition, unitary⟩ =>
    ⟨name, numQubits, numClbits, params, Circuit.unindexedOption definition, unitary⟩

/-- The control flow without the indices in its bodies. -/
def ControlFlow.unindexed : ControlFlow → ControlFlow
  | .ifElse c t f => .ifElse c t.unindexed (Circuit.unindexedOption f)
  | .whileLoop c b => .whileLoop c b.unindexed
  | .forLoop i p b => .forLoop i p b.unindexed
  | .switchCase t arms => .switchCase t (SwitchArm.unindexedList arms)
  | .box b d => .box b.unindexed d
  | .jump j q c => .jump j q c

/-- The cases without the indices in their bodies. -/
def SwitchArm.unindexedList : List SwitchArm → List SwitchArm
  | [] => []
  | ⟨labels, body⟩ :: rest => ⟨labels, body.unindexed⟩ :: SwitchArm.unindexedList rest

/-- The circuit, if there is one, without indices. -/
def Circuit.unindexedOption : Option Circuit → Option Circuit
  | none => none
  | some c => some c.unindexed

/-- The circuit without indices. -/
def Circuit.unindexed : Circuit → Circuit
  | ⟨name, content, blocks⟩ => ⟨name, content.unindexed, blocks⟩

/-- The content without its index and without those inside it. -/
def Content.unindexed : Content → Content
  | ⟨qubits, clbits, records, _, phase, identifiers, duration⟩ =>
    ⟨qubits, clbits, Instruction.unindexedList records, .empty, phase, identifiers, duration⟩

/-- The records without the indices in their operations. -/
def Instruction.unindexedList : List Instruction → List Instruction
  | [] => []
  | ⟨operation, qubits, clbits, label⟩ :: rest =>
    ⟨operation.unindexed, qubits, clbits, label⟩ :: Instruction.unindexedList rest

end

/-- The record without the indices in its operation. -/
def Instruction.unindexed (i : Instruction) : Instruction :=
  { i with operation := i.operation.unindexed }

theorem Instruction.unindexedList_eq (l : List Instruction) :
    Instruction.unindexedList l = l.map Instruction.unindexed := by
  induction l with
  | nil => rfl
  | cons i rest ih =>
    obtain ⟨operation, qubits, clbits, label⟩ := i
    rw [Instruction.unindexedList, ih]
    rfl

/-- Contents that differ in their index and in those inside only. -/
theorem Content.unindexed_eq_iff {c d : Content} :
    c.unindexed = d.unindexed ↔ c.qubits = d.qubits ∧ c.clbits = d.clbits ∧
      c.records.map (·.unindexed) = d.records.map (·.unindexed) ∧ c.phase = d.phase ∧
      c.identifiers = d.identifiers ∧ c.duration = d.duration := by
  obtain ⟨qubits, clbits, records, table, phase, identifiers, duration⟩ := c
  obtain ⟨qubits', clbits', records', table', phase', identifiers', duration'⟩ := d
  simp only [Content.unindexed, Instruction.unindexedList_eq, Content.mk.injEq, true_and]

theorem Circuit.unindexed_eq_iff {c d : Circuit} :
    c.unindexed = d.unindexed ↔
      c.name = d.name ∧ c.content.unindexed = d.content.unindexed ∧ c.blocks = d.blocks := by
  obtain ⟨name, content, blocks⟩ := c
  obtain ⟨name', content', blocks'⟩ := d
  simp only [Circuit.unindexed, Circuit.mk.injEq]

theorem SwitchArm.unindexedList_eq (arms : List SwitchArm) :
    SwitchArm.unindexedList arms =
      List.zipWith (fun arm body => { arm with body := body }) arms
        (arms.map fun arm => arm.body.unindexed) := by
  induction arms with
  | nil => rfl
  | cons arm rest ih =>
    obtain ⟨labels, body⟩ := arm
    rw [SwitchArm.unindexedList, ih]
    rfl

theorem ControlFlow.unindexed_eq (flow : ControlFlow) :
    flow.unindexed = flow.withBodies (flow.bodies.map (·.unindexed)) := by
  cases flow with
  | ifElse c t f => cases f <;> rfl
  | whileLoop c b | forLoop i p b | box b d | jump j q c => rfl
  | switchCase t arms =>
    rw [ControlFlow.unindexed, SwitchArm.unindexedList_eq, ControlFlow.bodies, List.map_map]
    rfl

/-- The indices are those of the circuits in the operation. -/
theorem Operation.unindexed_eq (op : Operation) :
    op.unindexed = op.withParts id (op.circuits.map (·.unindexed)) := by
  cases op with
  | gate g => cases g <;> rfl
  | custom o =>
    obtain ⟨name, numQubits, numClbits, params, definition, unitary⟩ := o
    cases definition <;>
      simp [Operation.unindexed, CustomOp.unindexed, Circuit.unindexedOption, Operation.withParts,
        Operation.circuits]
  | control flow => exact congrArg Operation.control flow.unindexed_eq
  | measure | reset | barrier w | delay d | store a => rfl

theorem Operation.unindexed_withParts {op : Operation} {f : Angle → Angle}
    {circuits : List Circuit} (h : circuits.length = op.circuits.length) :
    (op.withParts f circuits).unindexed = op.withParts f (circuits.map (·.unindexed)) := by
  rw [Operation.unindexed_eq, Operation.circuits_withParts h,
    Operation.withParts_withParts h (by rw [List.length_map, h])]
  rfl

/-! ## One level -/

section Level

variable {s t : Binding Float}

theorem Operation.innerBinding_append (op : Operation) :
    op.innerBinding (s ++ t) = op.innerBinding s ++ op.innerBinding t := by
  rw [op.innerBinding_eq, op.innerBinding_eq, op.innerBinding_eq]
  cases op.loopParameter? with
  | none => rfl
  | some p => simp only [Assoc.erase_eq_filter, List.filter_append]

/-- That assigning one binding after the other makes of the content what both make together. -/
def Content.InTurn (c : Content) : Prop :=
  ∀ s t d e f, s.Numeric → t.Numeric → c.assign s = .ok d → d.assign t = .ok e →
    c.assign (s ++ t) = .ok f → e.unindexed = f.unindexed

/-- What holds of the circuits in an operation holds of the operation. -/
theorem Operation.inTurn {op op₁ op₂ op₃ : Operation} (hs : s.Numeric) (ht : t.Numeric)
    (inner : ∀ b ∈ op.circuits, b.content.InTurn) (h₁ : op.assign s = .ok op₁)
    (h₂ : op₁.assign t = .ok op₂) (h₃ : op.assign (s ++ t) = .ok op₃) :
    op₂.unindexed = op₃.unindexed := by
  obtain ⟨first, hfirst, rfl⟩ := Operation.assign_eq_ok_iff.1 h₁
  obtain ⟨second, hsecond, rfl⟩ := Operation.assign_eq_ok_iff.1 h₂
  obtain ⟨both, hboth, rfl⟩ := Operation.assign_eq_ok_iff.1 h₃
  have hlen : first.length = op.circuits.length := hfirst.length_eq.symm
  rw [Operation.circuits_withParts hlen] at hsecond
  simp only [Operation.innerBinding_withParts] at hsecond
  have hlen' : second.length = op.circuits.length := hsecond.length_eq.symm.trans hlen
  rw [Operation.withParts_withParts hlen hlen', Operation.unindexed_withParts hlen',
    Operation.unindexed_withParts hboth.length_eq.symm]
  have hcircuits : second.map (·.unindexed) = both.map (·.unindexed) := by
    refine Checking.map_eq_map (Checking.forall₂_trans hfirst hsecond) hboth ?_
    rintro b hb d f ⟨b₁, -, hb₁, hd⟩ hf
    rw [Circuit.assign_eq_ok_iff] at hb₁ hd hf
    rw [Operation.innerBinding_append] at hf
    refine Circuit.unindexed_eq_iff.2 ⟨?_, ?_, ?_⟩
    · rw [hd.2.1, hb₁.2.1, hf.2.1]
    · exact inner b hb _ _ _ _ _ (op.numeric_innerBinding hs) (op.numeric_innerBinding ht)
        hb₁.1 hd.1 hf.1
    · rw [hd.2.2, hb₁.2.2, hf.2.2]
  rw [hcircuits]
  exact Operation.withParts_congr fun e _ => ParamExpr.subst_subst hs e

theorem Instruction.uses_append_iff {i : Instruction} : i.Uses (s ++ t) ↔ i.Uses s ∨ i.Uses t := by
  unfold Instruction.Uses
  simp only [Assoc.keys_append, List.mem_append]
  constructor
  · rintro ⟨u, hu, hkey | hkey⟩
    · exact .inl ⟨u, hu, hkey⟩
    · exact .inr ⟨u, hu, hkey⟩
  · rintro (⟨u, hu, hkey⟩ | ⟨u, hu, hkey⟩)
    · exact ⟨u, hu, .inl hkey⟩
    · exact ⟨u, hu, .inr hkey⟩

namespace Content

variable {c d e f : Content}

/-- Parameters that a record reads are listed by it where indices are exact and definitions hide
nothing, so a record that an assignment passes over reads no key. -/
theorem not_mem_keys_of_not_uses (hc : Everywhere Indexed c) (hfaithful : c.Faithful)
    {i : Instruction} (hi : i ∈ c.records) (hused : ¬ i.Uses s) {p : Parameter}
    (hp : i.operation.Reads p) : p ∉ Assoc.keys s := by
  intro hkey
  obtain ⟨slot, hslot⟩ := hfaithful.freeAt_of_reads hi hp
  exact hused ⟨(slot, p), (hc.mem_freeParameters_iff hi).2 hslot, hkey⟩

/-- If the second assignment passes over what the first made of a record, its keys were none of
those that the record reads, but for keys of the first. -/
theorem not_mem_keys_of_not_uses_assigned (hc : Everywhere Indexed c) (hfaithful : c.Faithful)
    (hs : s.Numeric) (hd : Everywhere Indexed d) {i i' : Instruction} (hi : i ∈ c.records)
    (hi' : i' ∈ d.records) (hop : i.operation.assign s = .ok i'.operation) (hused : ¬ i'.Uses t)
    {p : Parameter} (hp : i.operation.Reads p) (hkey : p ∉ Assoc.keys s) : p ∉ Assoc.keys t := by
  intro hkey'
  obtain ⟨slot, hslot⟩ := hfaithful.freeAt_of_reads hi hp
  have hleft : i'.operation.FreeAt p slot :=
    (hc.freeAt_assign_iff_of_numeric hs hi hop).2 ⟨hslot, hkey⟩
  exact hused ⟨(slot, p), (hd.mem_freeParameters_iff hi').2 hleft, hkey'⟩

/-- What holds of the circuits in a record holds of the record, whether the assignments pass over
it or not. -/
theorem record_inTurn (hc : Everywhere Kept c) (hfaithful : c.Faithful) (hs : s.Numeric)
    (ht : t.Numeric) (hd : Everywhere Indexed d) {i i₁ i₂ i₃ : Instruction} (hi : i ∈ c.records)
    (hi₁ : i₁ ∈ d.records) (inner : ∀ b ∈ i.operation.circuits, b.content.InTurn)
    (h₁ : i.assign s = .ok i₁) (h₂ : i₁.assign t = .ok i₂) (h₃ : i.assign (s ++ t) = .ok i₃) :
    i₂.unindexed = i₃.unindexed := by
  obtain ⟨op₁, hfirst, hop₁, rfl⟩ | ⟨hfirst, rfl⟩ := Instruction.assign_cases h₁
  · have hboth : i.Uses (s ++ t) := Instruction.uses_append_iff.2 (.inl hfirst)
    obtain ⟨op₃, hop₃, rfl⟩ := (Instruction.assign_eq_ok_iff_of_uses hboth).1 h₃
    obtain ⟨op₂, -, hop₂, rfl⟩ | ⟨hsecond, rfl⟩ := Instruction.assign_cases h₂
    · simp only [Instruction.unindexed, Operation.inTurn hs ht inner hop₁ hop₂ hop₃]
    · -- nothing was left for the second to replace
      have hagree : i.operation.Agree s (s ++ t) := by
        refine .of_numeric (hs.append ht) fun p hp => ?_
        rw [Assoc.find?_append_eq_ite]
        split
        · rfl
        · rename_i hkey
          have hkey' := not_mem_keys_of_not_uses_assigned hc.indexed hfaithful hs hd hi hi₁ hop₁
            hsecond hp hkey
          rw [(Assoc.find?_eq_none_iff p t).2 hkey', (Assoc.find?_eq_none_iff p s).2 hkey]
      have hsame := hc.assign_operation_of_agree hi hagree hop₁
      obtain rfl : op₃ = op₁ := Except.ok.inj (hop₃.symm.trans hsame)
      rfl
  · -- the first passed over the record, so its keys do not count
    obtain ⟨op₂, hsecond, hop₂, rfl⟩ | ⟨hsecond, rfl⟩ := Instruction.assign_cases h₂
    · have hboth : i₁.Uses (s ++ t) := Instruction.uses_append_iff.2 (.inr hsecond)
      obtain ⟨op₃, hop₃, rfl⟩ := (Instruction.assign_eq_ok_iff_of_uses hboth).1 h₃
      have hagree : i₁.operation.Agree t (s ++ t) := by
        refine .of_numeric (hs.append ht) fun p hp => ?_
        have hkey := not_mem_keys_of_not_uses hc.indexed hfaithful hi hfirst hp
        rw [Assoc.find?_append_eq_ite, if_neg hkey]
      have hsame := hc.assign_operation_of_agree hi hagree hop₂
      obtain rfl : op₃ = op₂ := Except.ok.inj (hop₃.symm.trans hsame)
      rfl
    · have hneither : ¬ i₂.Uses (s ++ t) := by
        rw [Instruction.uses_append_iff, not_or]
        exact ⟨hfirst, hsecond⟩
      rw [Instruction.assign_of_not_uses hneither] at h₃
      cases h₃
      rfl

/-- At every depth two assignments of numbers in turn make what both make together. -/
theorem Everywhere.inTurn (hc : Everywhere Kept c) (hfaithful : c.Faithful) :
    c.InTurn := by
  induction hc with
  | @intro c hkept hin ih =>
    have hall : Everywhere Kept c := .intro hkept hin
    intro s t d e f hs ht hd he hf
    have hleft : Everywhere Indexed d := hall.indexed.indexed_assign hd
    obtain ⟨hfirst, hphase, hduration⟩ := hkept.toIndexed.of_assign hd
    obtain ⟨hsecond, hphase', hduration'⟩ := hleft.here.of_assign he
    obtain ⟨hboth, hphase'', hduration''⟩ := hkept.toIndexed.of_assign hf
    obtain ⟨hqubits, hclbits, hidentifiers⟩ := assign_frame hd
    obtain ⟨hqubits', hclbits', hidentifiers'⟩ := assign_frame he
    obtain ⟨hqubits'', hclbits'', hidentifiers''⟩ := assign_frame hf
    refine unindexed_eq_iff.2 ⟨?_, ?_, ?_, ?_, ?_, ?_⟩
    · rw [hqubits', hqubits, hqubits'']
    · rw [hclbits', hclbits, hclbits'']
    · refine Checking.map_eq_map (Checking.forall₂_trans hfirst hsecond) hboth ?_
      rintro i hi i₂ i₃ ⟨i₁, hi₁, h₁, h₂⟩ h₃
      have inner : ∀ b ∈ i.operation.circuits, b.content.InTurn := by
        intro b hb
        have hmem : b ∈ c.circuits := mem_circuits_iff.2 ⟨i, hi, hb⟩
        exact ih b hmem (hfaithful.inside hmem)
      exact record_inTurn hall hfaithful hs ht hleft hi hi₁ inner h₁ h₂ h₃
    · rw [hphase', hphase, hphase'', ParamExpr.phaseAfter_phaseAfter hs]
    · rw [hidentifiers', hidentifiers, hidentifiers'']
    · rw [hduration', hduration, hduration'']

end Content

end Level

/-- On a reached circuit whose custom operations name what is free in their definitions, take two
bindings of numbers without a common key. To assign one after the other, in either order, and to
assign both together answers each time. All three leave the same records, at every depth, the same
phase and the same free parameters: those that are keys of neither. -/
theorem Circuit.Reachable.assign_in_turn {A : Policy} {c : Circuit} (hc : c.Reachable A)
    (hfaithful : c.content.Faithful) {s t : Binding Float} (hs : s.Numeric) (ht : t.Numeric)
    (hdisjoint : ∀ p ∈ Assoc.keys s, p ∉ Assoc.keys t) :
    ∃ d e d' e' f,
      Content.assignParameters s false c.content = .ok () d ∧
      Content.assignParameters t false d = .ok () e ∧
      Content.assignParameters t false c.content = .ok () d' ∧
      Content.assignParameters s false d' = .ok () e' ∧
      Content.assignParameters (s ++ t) false c.content = .ok () f ∧
      e.unindexed = f.unindexed ∧ e'.unindexed = f.unindexed ∧
      e.phase = f.phase ∧ e'.phase = f.phase ∧
      ∀ p, (p ∈ f.parameters ↔ p ∈ c.parameters ∧ p ∉ Assoc.keys s ∧ p ∉ Assoc.keys t) ∧
        (p ∈ e.parameters ↔ p ∈ f.parameters) ∧ (p ∈ e'.parameters ↔ p ∈ f.parameters) := by
  have hkept : Content.Everywhere Content.Kept c.content := hc.built.kept
  obtain ⟨d, hd⟩ := hkept.indexed.assign_answers hs
  obtain ⟨d', hd'⟩ := hkept.indexed.assign_answers ht
  obtain ⟨f, hf⟩ := hkept.indexed.assign_answers (hs.append ht)
  have hleft := hkept.indexed.indexed_assign hd
  have hleft' := hkept.indexed.indexed_assign hd'
  obtain ⟨e, he⟩ := hleft.assign_answers ht
  obtain ⟨e', he'⟩ := hleft'.assign_answers hs
  -- without a common key it does not matter which binding is asked first
  have hswapped : c.content.assign (t ++ s) = .ok f :=
    hkept.assign_of_agree
      (.of_numeric (ht.append hs) fun p _ => (Assoc.find?_append_comm hdisjoint p).symm) hf
  have hsame : e.unindexed = f.unindexed :=
    hkept.inTurn hfaithful s t d e f hs ht hd he hf
  have hsame' : e'.unindexed = f.unindexed :=
    hkept.inTurn hfaithful t s d' e' f ht hs hd' he' hswapped
  obtain ⟨-, -, -, hphase, -⟩ := Content.unindexed_eq_iff.1 hsame
  obtain ⟨-, -, -, hphase', -⟩ := Content.unindexed_eq_iff.1 hsame'
  refine ⟨d, e, d', e', f, ?_, ?_, ?_, ?_, ?_, hsame, hsame', hphase, hphase', fun p => ?_⟩
  · exact Content.assignParameters_eq_ok_iff.2 hd
  · exact Content.assignParameters_eq_ok_iff.2 he
  · exact Content.assignParameters_eq_ok_iff.2 hd'
  · exact Content.assignParameters_eq_ok_iff.2 he'
  · exact Content.assignParameters_eq_ok_iff.2 hf
  · have hboth : p ∈ f.parameters ↔
        p ∈ c.parameters ∧ p ∉ Assoc.keys s ∧ p ∉ Assoc.keys t := by
      rw [hkept.indexed.mem_parameters_assign_iff (hs.append ht) hf, Assoc.keys_append,
        List.mem_append, not_or]
      rfl
    refine ⟨hboth, ?_, ?_⟩
    · rw [hboth, hleft.mem_parameters_assign_iff ht he,
        hkept.indexed.mem_parameters_assign_iff hs hd, and_assoc]
      rfl
    · rw [hboth, hleft'.mem_parameters_assign_iff hs he',
        hkept.indexed.mem_parameters_assign_iff ht hd', and_assoc, and_comm (a := p ∉ Assoc.keys t)]
      rfl

namespace Circuit

/-- A rotation of the first qubit. -/
def rotationBy (e : Angle) : Instruction := .make (.gate (.rotation .rz e)) [0] []

/-- A circuit on one qubit with these records. -/
def onOneQubit (name : String) (records : List Instruction) : Circuit :=
  let qubit := Content.Call.addBit .quantum (.loose .quantum ⟨1, 0⟩)
  ⟨name, Content.empty.after (qubit :: records.map .push), []⟩

/-- The rotation that defines the custom operation. -/
def rotationByYZ : Circuit := onOneQubit "g" [rotationBy (.add (.sym freeY) (.sym otherZ))]

/-- A custom operation over `y` and `z`, defined by a rotation by their sum. -/
def sumOfYZ : CustomOp := ⟨"g", 1, 0, [.sym freeY, .sym otherZ], some rotationByYZ, true⟩

/-- The rotation that is in the loop. -/
def rotationByXY : Circuit := onOneQubit "body" [rotationBy (.add (.sym loopX) (.sym freeY))]

/-- A loop over `x`, around a rotation by `x + y`. -/
def loopAroundXY : ControlFlow := .forLoop (.values [1, 2]) (some loopX) rotationByXY

/-- The custom operation, the loop, and a rotation by `z`. -/
def definesAndLoops : Circuit :=
  onOneQubit "c" [.make (.custom sumOfYZ) [0] [], .make (.control loopAroundXY) [0] [],
    rotationBy (.sym otherZ)]

theorem records_definesAndLoops : definesAndLoops.content.records =
    [.make (.custom sumOfYZ) [0] [], .make (.control loopAroundXY) [0] [],
      rotationBy (.sym otherZ)] := rfl

theorem mem_circuits_definesAndLoops {b : Circuit} (h : b ∈ definesAndLoops.content.circuits) :
    b = rotationByYZ ∨ b = rotationByXY := by
  simp only [Content.circuits, records_definesAndLoops, List.flatMap_cons, List.flatMap_nil,
    List.mem_append, List.not_mem_nil, or_false] at h
  rcases h with h | h | h
  · exact .inl (List.mem_singleton.1 h)
  · exact .inr (List.mem_singleton.1 h)
  · exact absurd h List.not_mem_nil

theorem rotationByYZ_built : rotationByYZ.content.Built .any := .empty_after rfl

theorem rotationByXY_built : rotationByXY.content.Built .any := .empty_after rfl

theorem definesAndLoops_reachable : definesAndLoops.Reachable .any := by
  refine .ofStore "c" (Content.Built.empty.after_of_circuits fun b hb => ?_)
  rcases mem_circuits_definesAndLoops hb with rfl | rfl
  · exact rotationByYZ_built
  · exact rotationByXY_built

theorem definesAndLoops_faithful : definesAndLoops.content.Faithful := by
  refine .intro (fun i hi o b heq hb p hp => ?_) fun b hb => ?_
  · rw [records_definesAndLoops] at hi
    simp only [List.mem_cons, List.not_mem_nil, or_false] at hi
    rcases hi with rfl | rfl | rfl
    · cases heq
      cases hb
      have hindexed := rotationByYZ_built.everywhere_any Content.indexed_invariant
      have hlisted := hindexed.mem_parameters_iff.2 hp
      have hall : rotationByYZ.content.parameters = [freeY, otherZ] := by decide +kernel
      rw [hall] at hlisted
      rcases List.mem_cons.1 hlisted with rfl | hlast
      · exact ⟨.sym freeY, by simp [sumOfYZ], List.mem_singleton.2 rfl⟩
      · rw [List.mem_singleton.1 hlast]
        exact ⟨.sym otherZ, by simp [sumOfYZ], List.mem_singleton.2 rfl⟩
    · cases heq
    · cases heq
  · rcases mem_circuits_definesAndLoops hb with rfl | rfl
    · exact Content.faithful_of_gates fun i hi => ⟨_, congrArg _ (List.mem_singleton.1 hi)⟩
    · exact Content.faithful_of_gates fun i hi => ⟨_, congrArg _ (List.mem_singleton.1 hi)⟩

/-- The custom operation and the loop are given a number for `y` first and one for `z` later, or
the other way round, or both at once; what is to replace the parameter of the loop does nothing. -/
theorem assign_in_turn_definesAndLoops : definesAndLoops.Reachable .any ∧
    definesAndLoops.content.Faithful ∧
    ∃ d e d' e' f,
      Content.assignParameters [(freeY, .const 1), (loopX, .const 3)] false
        definesAndLoops.content = .ok () d ∧
      Content.assignParameters [(otherZ, .const 2)] false d = .ok () e ∧
      Content.assignParameters [(otherZ, .const 2)] false definesAndLoops.content = .ok () d' ∧
      Content.assignParameters [(freeY, .const 1), (loopX, .const 3)] false d' = .ok () e' ∧
      Content.assignParameters [(freeY, .const 1), (loopX, .const 3), (otherZ, .const 2)] false
        definesAndLoops.content = .ok () f ∧
      e.unindexed = f.unindexed ∧ e'.unindexed = f.unindexed ∧ ∀ p, p ∉ e.parameters := by
  have hall : definesAndLoops.parameters = [freeY, otherZ] := by decide +kernel
  have hs : Binding.Numeric [(freeY, (.const 1 : Angle)), (loopX, .const 3)] := by
    intro u hu
    simp only [List.mem_cons, List.not_mem_nil, or_false] at hu
    rcases hu with rfl | rfl <;> rfl
  have ht : Binding.Numeric [(otherZ, (.const 2 : Angle))] := by
    intro u hu
    rw [List.mem_singleton.1 hu]
    rfl
  obtain ⟨d, e, d', e', f, hd, he, hd', he', hf, hsame, hsame', -, -, hparameters⟩ :=
    definesAndLoops_reachable.assign_in_turn definesAndLoops_faithful hs ht (by decide)
  refine ⟨definesAndLoops_reachable, definesAndLoops_faithful, d, e, d', e', f, hd, he, hd', he',
    hf, hsame, hsame', fun p hp => ?_⟩
  obtain ⟨hboth, hleft, -⟩ := hparameters p
  obtain ⟨hp, hy, hz⟩ := hboth.1 (hleft.1 hp)
  rw [hall] at hp
  simp only [List.mem_cons, List.not_mem_nil, or_false] at hp
  rcases hp with rfl | rfl
  · exact hy (by decide)
  · exact hz (by decide)

end Circuit

end QuantumCircuit
