import QuantumCircuit.Circuit.Assignment
import QuantumCircuit.Proofs.Checking

/-!
# Circuits inside circuits

The bodies of control flow and the definitions of custom operations are whole
circuits, with an index of parameters of their own. `Content.Everywhere P` says
that a content and all contents inside it, at any depth, have `P`.

An assignment to a content makes assignments to the circuits inside the records
that it changes, and these to the circuits inside those (`Content.Assigns`). What
one level of it does to the records is `Content.assign_eq_ok_iff`; a property that
one level keeps is kept everywhere (`Content.Everywhere.assign`).
-/

namespace QuantumCircuit

/-- The circuits that the operation holds: its bodies, or its definition. -/
def Operation.circuits : Operation → List Circuit
  | .custom op => op.definition.toList
  | .control flow => flow.bodies
  | _ => []

/-- The circuits inside the records, not those inside them in turn. -/
def Content.circuits (c : Content) : List Circuit := c.records.flatMap (·.operation.circuits)

theorem Content.mem_circuits_iff {c : Content} {d : Circuit} :
    d ∈ c.circuits ↔ ∃ i ∈ c.records, d ∈ i.operation.circuits := List.mem_flatMap

theorem Content.mem_circuits_of_body {c : Content} {i : Instruction} {flow : ControlFlow}
    {b : Circuit} {k slot : Nat} (hi : c.records[k]? = some i) (hflow : i.operation = .control flow)
    (hb : flow.bodies[slot]? = some b) : b ∈ c.circuits := by
  refine mem_circuits_iff.2 ⟨i, List.mem_of_getElem? hi, ?_⟩
  rw [hflow]
  exact List.mem_of_getElem? hb

namespace Content

/-- The content has the property, and so has every content inside it. -/
inductive Everywhere (P : Content → Prop) : Content → Prop
  | intro {c : Content} : P c → (∀ d ∈ c.circuits, Everywhere P d.content) → Everywhere P c

namespace Everywhere

variable {P Q R : Content → Prop} {c : Content}

theorem here (h : Everywhere P c) : P c := by
  cases h with
  | intro hp _ => exact hp

theorem inside (h : Everywhere P c) {d : Circuit} (hd : d ∈ c.circuits) :
    Everywhere P d.content := by
  cases h with
  | intro _ hin => exact hin d hd

theorem record (h : Everywhere P c) {i : Instruction} (hi : i ∈ c.records) {d : Circuit}
    (hd : d ∈ i.operation.circuits) : Everywhere P d.content :=
  h.inside (mem_circuits_iff.2 ⟨i, hi, hd⟩)

/-- What follows from two properties at each level follows from them at every depth. -/
theorem combine (hP : Everywhere P c) (hQ : Everywhere Q c) (h : ∀ c, P c → Q c → R c) :
    Everywhere R c := by
  induction hP with
  | intro hc _ ih => exact .intro (h _ hc hQ.here) fun d hd => ih d hd (hQ.inside hd)

end Everywhere

end Content

/-! ## Assignment, one level at a time -/

/-- What an assignment to the control flow assigns in its bodies. -/
def ControlFlow.innerBinding (flow : ControlFlow) (s : Binding Float) : Binding Float :=
  match flow.loopParameter? with
  | some p => Assoc.erase p s
  | none => s

/-- The circuits that the operation holds, each with what an assignment assigns there. -/
def Operation.innerBindings (op : Operation) (s : Binding Float) : List (Circuit × Binding Float) :=
  match op with
  | .control flow => flow.bodies.map (·, flow.innerBinding s)
  | op => op.circuits.map (·, s)

theorem Operation.fst_innerBindings (op : Operation) (s : Binding Float) :
    (op.innerBindings s).map (·.1) = op.circuits := by
  cases op <;> simp [Operation.innerBindings, Operation.circuits, Function.comp_def]

theorem Operation.mem_circuits_of_innerBindings {op : Operation} {s : Binding Float}
    {b : Circuit × Binding Float} (h : b ∈ op.innerBindings s) : b.1 ∈ op.circuits :=
  op.fst_innerBindings s ▸ List.mem_map_of_mem h

/-- That the second circuit is what assigning makes of the first. -/
abbrev Assigned (b : Circuit × Binding Float) (d : Circuit) : Prop := b.1.assign b.2 = .ok d

theorem Circuit.assign_eq_ok_iff {s : Binding Float} {c c' : Circuit} :
    c.assign s = .ok c' ↔
      c.content.assign s = .ok c'.content ∧ c'.name = c.name ∧ c'.blocks = c.blocks := by
  obtain ⟨name, content, blocks⟩ := c
  obtain ⟨name', content', blocks'⟩ := c'
  unfold Circuit.assign
  cases h : content.assign s with
  | error e => simp [bind, Except.bind]
  | ok d =>
    simp only [bind, Except.bind, pure, Except.pure, Except.ok.injEq, Circuit.mk.injEq]
    constructor
    · rintro ⟨rfl, rfl, rfl⟩
      exact ⟨rfl, rfl, rfl⟩
    · rintro ⟨rfl, rfl, rfl⟩
      exact ⟨rfl, rfl, rfl⟩

theorem Circuit.assignOption_eq_ok_iff {s : Binding Float} {c c' : Option Circuit} :
    Circuit.assignOption s c = .ok c' ↔
      List.Forall₂ Assigned (c.toList.map (·, s)) c'.toList := by
  cases c with
  | none => cases c' <;> simp [Circuit.assignOption]
  | some c =>
    unfold Circuit.assignOption
    cases h : c.assign s with
    | error e => cases c' <;> simp [bind, Except.bind, Assigned, h]
    | ok d => cases c' <;> simp [bind, Except.bind, pure, Except.pure, Assigned, h]

theorem SwitchArm.assignList_eq_ok {s : Binding Float} {arms arms' : List SwitchArm}
    (h : SwitchArm.assignList s arms = .ok arms') :
    List.Forall₂ Assigned (arms.map (·.body, s)) (arms'.map (·.body)) ∧
      arms'.map (·.labels) = arms.map (·.labels) := by
  induction arms generalizing arms' with
  | nil =>
    obtain rfl : [] = arms' := by simpa [SwitchArm.assignList] using h
    simp
  | cons arm rest ih =>
    obtain ⟨labels, body⟩ := arm
    unfold SwitchArm.assignList at h
    cases hb : body.assign s with
    | error e => simp [hb, bind, Except.bind] at h
    | ok body' =>
      cases hr : SwitchArm.assignList s rest with
      | error e => simp [hb, hr, bind, Except.bind] at h
      | ok rest' =>
        obtain rfl : ⟨labels, body'⟩ :: rest' = arms' := by
          simpa [hb, hr, bind, Except.bind, pure, Except.pure] using h
        obtain ⟨hbodies, hlabels⟩ := ih hr
        exact ⟨.cons hb hbodies, by simp [hlabels]⟩

/-- The bodies of assigned control flow are the assigned bodies; the rest stays. -/
theorem ControlFlow.assign_eq_ok {s : Binding Float} {flow flow' : ControlFlow}
    (h : flow.assign s = .ok flow') :
    List.Forall₂ Assigned (flow.bodies.map (·, flow.innerBinding s)) flow'.bodies ∧
      flow'.loopParameter? = flow.loopParameter? ∧ flow'.ownIdentifiers = flow.ownIdentifiers ∧
      flow'.classicalUse = flow.classicalUse ∧ flow'.name = flow.name := by
  cases flow with
  | ifElse c t f =>
    simp only [ControlFlow.assign] at h
    obtain ⟨t', ht, h⟩ := Checking.bind_eq_ok_iff.1 h
    obtain ⟨f', hf, h⟩ := Checking.bind_eq_ok_iff.1 h
    cases h
    exact ⟨.cons ht (Circuit.assignOption_eq_ok_iff.1 hf), rfl, rfl, rfl, rfl⟩
  | whileLoop c b =>
    simp only [ControlFlow.assign] at h
    obtain ⟨b', hb, h⟩ := Checking.bind_eq_ok_iff.1 h
    cases h
    exact ⟨.cons hb .nil, rfl, rfl, rfl, rfl⟩
  | forLoop i p b =>
    cases p <;>
    · simp only [ControlFlow.assign] at h
      obtain ⟨b', hb, h⟩ := Checking.bind_eq_ok_iff.1 h
      cases h
      exact ⟨.cons hb .nil, rfl, rfl, rfl, rfl⟩
  | switchCase t arms =>
    simp only [ControlFlow.assign] at h
    obtain ⟨arms', ha, h⟩ := Checking.bind_eq_ok_iff.1 h
    cases h
    refine ⟨?_, rfl, rfl, rfl, rfl⟩
    simpa [ControlFlow.bodies, ControlFlow.innerBinding, ControlFlow.loopParameter?]
      using (SwitchArm.assignList_eq_ok ha).1
  | box b d =>
    simp only [ControlFlow.assign] at h
    obtain ⟨b', hb, h⟩ := Checking.bind_eq_ok_iff.1 h
    cases h
    cases d <;> exact ⟨.cons hb .nil, rfl, rfl, rfl, rfl⟩
  | jump j q c =>
    cases h
    exact ⟨.nil, rfl, rfl, rfl, rfl⟩

/-- Of a custom operation an assignment goes to the angles and to the definition. -/
theorem CustomOp.assign_eq_ok {s : Binding Float} {op op' : CustomOp} (h : op.assign s = .ok op') :
    ∃ definition, Circuit.assignOption s op.definition = .ok definition ∧
      op' = { op with params := op.params.map (·.subst s), definition := definition } := by
  obtain ⟨name, numQubits, numClbits, params, definition, unitary⟩ := op
  simp only [CustomOp.assign] at h
  obtain ⟨definition', hdefinition, h⟩ := Checking.bind_eq_ok_iff.1 h
  cases h
  exact ⟨definition', hdefinition, rfl⟩

/-- The circuits in an assigned operation are the assigned circuits. -/
theorem Operation.assign_circuits {s : Binding Float} {op op' : Operation}
    (h : op.assign s = .ok op') :
    List.Forall₂ Assigned (op.innerBindings s) op'.circuits := by
  cases op with
  | control flow =>
    simp only [Operation.assign] at h
    obtain ⟨flow', hf, h⟩ := Checking.bind_eq_ok_iff.1 h
    cases h
    exact (ControlFlow.assign_eq_ok hf).1
  | custom op =>
    simp only [Operation.assign] at h
    obtain ⟨op', ho, h⟩ := Checking.bind_eq_ok_iff.1 h
    cases h
    obtain ⟨definition, hdefinition, rfl⟩ := CustomOp.assign_eq_ok ho
    exact Circuit.assignOption_eq_ok_iff.1 hdefinition
  | gate g | measure | reset | barrier w | delay d | store a =>
    cases h
    exact .nil

/-- The record with its operation assigned, or as it was if the assignment passes it over. -/
def Instruction.AssignedIf (s : Binding Float) (affected : Prop) (i i' : Instruction) : Prop :=
  ∃ op, i' = { i with operation := op } ∧
    (affected ∧ i.operation.assign s = .ok op ∨ ¬ affected ∧ op = i.operation)

theorem Instruction.assignList_cons_eq_ok {s : Binding Float} {indices : List Nat} {index : Nat}
    {i : Instruction} {rest assigned : List Instruction}
    (h : Instruction.assignList s indices index (i :: rest) = .ok assigned) :
    ∃ op rest', (index ∈ indices ∧ i.operation.assign s = .ok op ∨
        index ∉ indices ∧ op = i.operation) ∧
      Instruction.assignList s indices (index + 1) rest = .ok rest' ∧
      assigned = { i with operation := op } :: rest' := by
  obtain ⟨operation, qubits, clbits, label⟩ := i
  unfold Instruction.assignList at h
  split at h
  · rename_i hmem
    obtain ⟨op, hop, h⟩ := Checking.bind_eq_ok_iff.1 h
    obtain ⟨rest', hrest, h⟩ := Checking.bind_eq_ok_iff.1 h
    cases h
    exact ⟨op, rest', .inl ⟨by simpa using hmem, hop⟩, hrest, rfl⟩
  · rename_i hmem
    obtain ⟨op, hop, h⟩ := Checking.bind_eq_ok_iff.1 h
    obtain ⟨rest', hrest, h⟩ := Checking.bind_eq_ok_iff.1 h
    cases hop
    cases h
    exact ⟨operation, rest', .inr ⟨by simpa using hmem, rfl⟩, hrest, rfl⟩

theorem Instruction.assignList_eq_ok {s : Binding Float} {indices : List Nat} {index : Nat}
    {records assigned : List Instruction}
    (h : Instruction.assignList s indices index records = .ok assigned) :
    assigned.length = records.length ∧
      ∀ (k : Nat) (i i' : Instruction), records[k]? = some i → assigned[k]? = some i' →
        i.AssignedIf s (index + k ∈ indices) i' := by
  induction records generalizing index assigned with
  | nil =>
    cases h
    simp
  | cons i rest ih =>
    obtain ⟨operation, qubits, clbits, label⟩ := i
    obtain ⟨op, rest', hop, hrest, rfl⟩ := assignList_cons_eq_ok h
    obtain ⟨hlen, hat⟩ := ih hrest
    refine ⟨by simp [hlen], fun k i i' hi hi' => ?_⟩
    cases k with
    | zero =>
      simp only [List.getElem?_cons_zero, Option.some.injEq] at hi hi'
      subst hi hi'
      exact ⟨op, rfl, hop⟩
    | succ k =>
      rw [show index + (k + 1) = index + 1 + k by omega]
      exact hat k i i' (by simpa using hi) (by simpa using hi')

namespace Content

/-- The positions of the records that the assignment changes. -/
def affectedBy (c : Content) (s : Binding Float) : List Nat :=
  (c.table.affected (Assoc.keys s)).1

/-- The content with assigned records, and the phase assigned if it uses a key. -/
def reassigned (c : Content) (s : Binding Float) (assigned : List Instruction) : Content :=
  let table := c.table.retrack (c.affectedBy s) c.records assigned
  if (c.table.affected (Assoc.keys s)).2 then
    let replaced := (c.phase.subst s).normalizedPhase
    { c with
      records := assigned
      table := (table.untrackPhase c.phase.parameters).trackPhase replaced.parameters
      phase := replaced }
  else { c with records := assigned, table }

/-- One level of an assignment: the records are assigned, then the index follows. -/
theorem assign_eq_ok_iff {s : Binding Float} {c d : Content} :
    c.assign s = .ok d ↔ c.table.checkIncoming s = .ok () ∧
      ∃ assigned, Instruction.assignList s (c.affectedBy s) 0 c.records = .ok assigned ∧
        c.reassigned s assigned = d := by
  obtain ⟨qubits, clbits, records, table, phase, identifiers, duration⟩ := c
  simp only [Content.assign, affectedBy, reassigned]
  rw [Checking.seq_eq_ok_iff, Checking.bind_eq_ok_iff]
  refine and_congr_right fun _ => exists_congr fun assigned => and_congr_right fun _ => ?_
  split <;> simp [pure, Except.pure]

/-- An assignment to a content, and the assignments that it makes to the circuits inside. -/
inductive Assigns : Content → Binding Float → Content → Binding Float → Prop
  | here (c : Content) (s : Binding Float) : Assigns c s c s
  | inside {c : Content} {s : Binding Float} {k : Nat} {i : Instruction}
      {d : Circuit} {t : Binding Float} {e : Content} {u : Binding Float} :
      k ∈ c.affectedBy s → c.records[k]? = some i → (d, t) ∈ i.operation.innerBindings s →
      Assigns d.content t e u → Assigns c s e u

/-- Only the records, the index and the phase are replaced. -/
theorem exists_reassigned_eq (c : Content) (s : Binding Float) (l : List Instruction) :
    ∃ table phase, c.reassigned s l = { c with records := l, table, phase } := by
  unfold reassigned
  split
  · exact ⟨_, _, rfl⟩
  · exact ⟨_, c.phase, rfl⟩

@[simp] theorem reassigned_records (c : Content) (s : Binding Float) (l : List Instruction) :
    (c.reassigned s l).records = l := by
  obtain ⟨_, _, heq⟩ := c.exists_reassigned_eq s l
  rw [heq]

/-- A property that one level of an assignment keeps is kept at every depth. -/
theorem Everywhere.assign {P : Content → Prop} {s : Binding Float} {c d : Content}
    (h : Everywhere P c) (hd : c.assign s = .ok d)
    (step : ∀ e t e', Assigns c s e t → P e → e.assign t = .ok e' → P e') : Everywhere P d := by
  induction h generalizing s d with
  | @intro c hp hin ih =>
    refine .intro (step c s d (.here c s) hp hd) fun e he => ?_
    obtain ⟨-, assigned, hassigned, rfl⟩ := assign_eq_ok_iff.1 hd
    obtain ⟨hlen, hat⟩ := Instruction.assignList_eq_ok hassigned
    obtain ⟨i', hi', he⟩ := mem_circuits_iff.1 he
    rw [reassigned_records] at hi'
    obtain ⟨k, hk⟩ := List.getElem?_of_mem hi'
    obtain ⟨i, hi⟩ : ∃ i, c.records[k]? = some i := by
      have hlt : k < c.records.length := hlen ▸ (List.getElem?_eq_some_iff.1 hk).1
      exact ⟨_, List.getElem?_eq_getElem hlt⟩
    have hmem : i ∈ c.records := List.mem_of_getElem? hi
    obtain ⟨op, rfl, ⟨hk', hop⟩ | ⟨-, rfl⟩⟩ := hat k i i' hi hk
    · -- The record was changed: the circuit is what an inner assignment made.
      obtain ⟨b, hb, hbe⟩ := Checking.exists_left (Operation.assign_circuits hop) he
      have hcircuit := Operation.mem_circuits_of_innerBindings hb
      refine ih b.1 (mem_circuits_iff.2 ⟨i, hmem, hcircuit⟩)
        (Circuit.assign_eq_ok_iff.1 hbe).1 fun f t f' hf => ?_
      exact step f t f' (.inside (by simpa using hk') hi hb hf)
    · exact hin e (mem_circuits_iff.2 ⟨i, hmem, he⟩)

end Content

end QuantumCircuit
