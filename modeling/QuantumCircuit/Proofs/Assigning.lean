import QuantumCircuit.Proofs.Folding
import QuantumCircuit.Proofs.Renamed

/-!
# An assignment, part by part

An operation is its shape, its angles and the circuits in it, and `Operation.withParts`
puts other ones in. An assignment to it is an assignment to each circuit, in order, and
then the parts are put in (`Operation.assign_eq`): one equation for all operations, of
refusals as well as of answers.

An assignment to a content goes by the index. Where the index is exact the positions are
not needed: a record is assigned if it lists a key as free (`Content.Indexed.assignList_eq`).
-/

namespace QuantumCircuit

/-! ## The parts of an operation -/

theorem ControlFlow.withBodies_withBodies {flow : ControlFlow} {bodies others : List Circuit}
    (h : bodies.length = flow.bodies.length) (h' : others.length = flow.bodies.length) :
    (flow.withBodies bodies).withBodies others = flow.withBodies others := by
  cases flow with
  | ifElse c t f =>
    cases f with
    | none =>
      obtain ⟨x, rfl⟩ := List.length_eq_one_iff.1 h'
      rfl
    | some e =>
      obtain ⟨x, y, rfl⟩ := List.length_eq_two.1 h'
      rfl
  | whileLoop c b | forLoop i p b | box b d =>
    obtain ⟨x, rfl⟩ := List.length_eq_one_iff.1 h'
    rfl
  | switchCase t arms =>
    have hlen : bodies.length = arms.length := by simpa [ControlFlow.bodies] using h
    have hlen' : others.length = arms.length := by simpa [ControlFlow.bodies] using h'
    show ControlFlow.switchCase t _ = ControlFlow.switchCase t _
    congr 1
    exact List.ext_getElem (by simp [hlen, hlen']) fun k hk hk' => by simp
  | jump j q c => rfl

namespace Operation

/-- What an assignment to the operation assigns in the circuits that it holds. -/
def innerBinding : Operation → Binding Float → Binding Float
  | control flow, s => flow.innerBinding s
  | _, s => s

theorem innerBindings_eq (op : Operation) (s : Binding Float) :
    op.innerBindings s = op.circuits.map (·, op.innerBinding s) := by
  cases op <;> rfl

/-- The operation with its angles changed and with these circuits in it. -/
def withParts (f : Angle → Angle) (circuits : List Circuit) : Operation → Operation
  | gate g => gate (g.mapAngles f)
  | custom op =>
    custom { op with
      params := op.params.map f
      definition := op.definition.map fun b => circuits.headD b }
  | control flow => control (flow.withBodies circuits)
  | op => op

variable {op : Operation} {f g : Angle → Angle} {circuits others : List Circuit}

theorem circuits_withParts (h : circuits.length = op.circuits.length) :
    (op.withParts f circuits).circuits = circuits := by
  cases op with
  | custom o =>
    obtain ⟨name, numQubits, numClbits, params, definition, unitary⟩ := o
    cases definition with
    | none => exact (List.length_eq_zero_iff.1 h).symm
    | some b =>
      obtain ⟨x, rfl⟩ := List.length_eq_one_iff.1 h
      rfl
  | control flow => exact ControlFlow.bodies_withBodies h
  | gate g | measure | reset | barrier w | delay d | store a =>
    exact (List.length_eq_zero_iff.1 h).symm

theorem withParts_self : op.withParts id op.circuits = op := by
  cases op with
  | gate g => cases g <;> rfl
  | custom o =>
    obtain ⟨name, numQubits, numClbits, params, definition, unitary⟩ := o
    cases definition <;> simp [withParts, circuits]
  | control flow => exact congrArg control ControlFlow.withBodies_bodies
  | measure | reset | barrier w | delay d | store a => rfl

theorem innerBinding_withParts (s : Binding Float) :
    (op.withParts f circuits).innerBinding s = op.innerBinding s := by
  cases op with
  | control flow =>
    show ControlFlow.innerBinding _ s = flow.innerBinding s
    unfold ControlFlow.innerBinding
    rw [ControlFlow.loopParameter?_withBodies]
  | gate g | custom o | measure | reset | barrier w | delay d | store a => rfl

theorem withParts_congr (h : ∀ e ∈ op.params, f e = g e) :
    op.withParts f circuits = op.withParts g circuits := by
  cases op with
  | gate gate =>
    cases gate with
    | fixed kind => rfl
    | rotation kind a =>
      show Operation.gate (.rotation kind (f a)) = .gate (.rotation kind (g a))
      rw [h a (List.mem_singleton.2 rfl)]
    | universal a b c =>
      show Operation.gate (.universal (f a) (f b) (f c)) = .gate (.universal (g a) (g b) (g c))
      rw [h a (by simp [params, Gate.angles]), h b (by simp [params, Gate.angles]),
        h c (by simp [params, Gate.angles])]
  | custom o =>
    have hparams : o.params.map f = o.params.map g := List.map_congr_left h
    simp only [withParts, hparams]
  | control flow | measure | reset | barrier w | delay d | store a => rfl

theorem withParts_withParts (h : circuits.length = op.circuits.length)
    (h' : others.length = op.circuits.length) :
    (op.withParts f circuits).withParts g others = op.withParts (g ∘ f) others := by
  cases op with
  | gate gate => cases gate <;> rfl
  | custom o =>
    obtain ⟨name, numQubits, numClbits, params, definition, unitary⟩ := o
    cases definition with
    | none => simp [withParts]
    | some b =>
      obtain ⟨x, rfl⟩ := List.length_eq_one_iff.1 h'
      simp [withParts]
  | control flow => exact congrArg control (ControlFlow.withBodies_withBodies h h')
  | measure | reset | barrier w | delay d | store a => rfl

end Operation

/-- The cases in turn: their bodies are assigned, their labels stay. -/
theorem SwitchArm.assignList_eq (s : Binding Float) (arms : List SwitchArm) :
    SwitchArm.assignList s arms = (do
      let bodies ← (arms.map (·.body)).mapM fun b => b.assign s
      return List.zipWith (fun arm body => { arm with body := body }) arms bodies) := by
  induction arms with
  | nil => rfl
  | cons arm rest ih =>
    obtain ⟨labels, body⟩ := arm
    rw [SwitchArm.assignList, ih, List.map_cons, List.mapM_cons]
    simp only [bind_assoc, pure_bind]
    rfl

theorem ControlFlow.assign_eq (flow : ControlFlow) (s : Binding Float) :
    flow.assign s = (do
      let bodies ← flow.bodies.mapM fun b => b.assign (flow.innerBinding s)
      return flow.withBodies bodies) := by
  cases flow with
  | ifElse c t f =>
    cases f with
    | none =>
      simp only [ControlFlow.assign, Circuit.assignOption, bodies, Option.toList, innerBinding,
        loopParameter?, List.mapM_cons, List.mapM_nil, bind_assoc, pure_bind]
      rfl
    | some e =>
      simp only [ControlFlow.assign, Circuit.assignOption, bodies, Option.toList, innerBinding,
        loopParameter?, List.mapM_cons, List.mapM_nil, bind_assoc, pure_bind]
      rfl
  | forLoop i p b =>
    cases p with
    | none =>
      simp only [ControlFlow.assign, bodies, innerBinding, loopParameter?, List.mapM_cons,
        List.mapM_nil, bind_assoc, pure_bind]
      rfl
    | some p =>
      simp only [ControlFlow.assign, bodies, innerBinding, loopParameter?, List.mapM_cons,
        List.mapM_nil, bind_assoc, pure_bind]
      rfl
  | whileLoop c b | box b d =>
    simp only [ControlFlow.assign, bodies, innerBinding, loopParameter?, List.mapM_cons,
      List.mapM_nil, bind_assoc, pure_bind]
    rfl
  | switchCase t arms =>
    simp only [ControlFlow.assign, SwitchArm.assignList_eq, bind_assoc, pure_bind]
    rfl
  | jump j q c => rfl

/-- An assignment to an operation: to the circuits in it, in order, and to its angles. -/
theorem Operation.assign_eq (op : Operation) (s : Binding Float) :
    op.assign s = (do
      let circuits ← op.circuits.mapM fun b => b.assign (op.innerBinding s)
      return op.withParts (·.subst s) circuits) := by
  cases op with
  | custom o =>
    obtain ⟨name, numQubits, numClbits, params, definition, unitary⟩ := o
    cases definition with
    | none => rfl
    | some b =>
      simp only [Operation.assign, CustomOp.assign, Circuit.assignOption, circuits, Option.toList,
        innerBinding, List.mapM_cons, List.mapM_nil, bind_assoc, pure_bind]
      rfl
  | control flow =>
    rw [Operation.assign, ControlFlow.assign_eq, bind_assoc]
    rfl
  | gate g | measure | reset | barrier w | delay d | store a => rfl

theorem Operation.assign_eq_ok_iff {op op' : Operation} {s : Binding Float} :
    op.assign s = .ok op' ↔ ∃ circuits,
      List.Forall₂ (fun b b' => b.assign (op.innerBinding s) = .ok b') op.circuits circuits ∧
        op' = op.withParts (·.subst s) circuits := by
  rw [Operation.assign_eq, Checking.bind_eq_ok_iff]
  refine exists_congr fun circuits => and_congr Checking.mapM_eq_ok_iff ?_
  constructor
  · intro h
    cases h
    rfl
  · intro h
    rw [h]
    rfl

/-! ## Without the index -/

namespace Instruction

/-- That the record lists a key of the binding as free. -/
def Uses (s : Binding Float) (i : Instruction) : Prop :=
  ∃ u ∈ i.operation.freeParameters, u.2 ∈ Assoc.keys s

instance (s : Binding Float) (i : Instruction) : Decidable (i.Uses s) :=
  inferInstanceAs (Decidable (∃ u ∈ i.operation.freeParameters, u.2 ∈ Assoc.keys s))

/-- The record with its operation assigned if it uses a key, and else as it is. -/
def assign (s : Binding Float) (i : Instruction) : Except CircuitError Instruction :=
  if i.Uses s then do return { i with operation := ← i.operation.assign s } else .ok i

variable {s : Binding Float} {i i' : Instruction}

theorem assign_of_uses (h : i.Uses s) :
    i.assign s = (do return { i with operation := ← i.operation.assign s }) := if_pos h

theorem assign_of_not_uses (h : ¬ i.Uses s) : i.assign s = .ok i := if_neg h

theorem assign_eq_ok_iff_of_uses (h : i.Uses s) :
    i.assign s = .ok i' ↔
      ∃ op, i.operation.assign s = .ok op ∧ i' = { i with operation := op } := by
  rw [assign_of_uses h, Checking.bind_eq_ok_iff]
  refine exists_congr fun op => and_congr_right fun _ => ?_
  constructor
  · intro h
    cases h
    rfl
  · intro h
    rw [h]
    rfl

/-- Only what a record lists as free matters. -/
theorem uses_congr {j : Instruction} (h : j.operation.freeParameters = i.operation.freeParameters) :
    j.Uses s ↔ i.Uses s := by
  unfold Uses
  rw [h]

/-- All that an assignment can make of a record. -/
theorem assign_cases (h : i.assign s = .ok i') :
    (∃ op, i.Uses s ∧ i.operation.assign s = .ok op ∧ i' = { i with operation := op }) ∨
      ¬ i.Uses s ∧ i' = i := by
  by_cases hused : i.Uses s
  · obtain ⟨op, hop, heq⟩ := (assign_eq_ok_iff_of_uses hused).1 h
    exact .inl ⟨op, hused, hop, heq⟩
  · rw [assign_of_not_uses hused] at h
    exact .inr ⟨hused, (Except.ok.inj h).symm⟩

/-- Positions at which exactly the records stand that use a key say the same as the keys. -/
theorem assignList_eq_mapM {indices : List Nat} {index : Nat} {records : List Instruction}
    (h : ∀ (k : Nat) (i : Instruction), records[k]? = some i → (index + k ∈ indices ↔ i.Uses s)) :
    Instruction.assignList s indices index records = records.mapM (·.assign s) := by
  induction records generalizing index with
  | nil => rfl
  | cons i rest ih =>
    obtain ⟨operation, qubits, clbits, label⟩ := i
    have hrest := @ih (index + 1) fun k i hi => by
      have hat := h (k + 1) i hi
      rwa [Nat.add_comm k 1, ← Nat.add_assoc] at hat
    have hfirst := h 0 _ rfl
    rw [Instruction.assignList, List.mapM_cons, hrest]
    by_cases hused : Instruction.Uses s ⟨operation, qubits, clbits, label⟩
    · have hmem : indices.contains index = true := by simpa using hfirst.2 hused
      rw [assign_of_uses hused, if_pos hmem]
      simp only [bind_assoc, pure_bind]
    · have hmem : ¬ indices.contains index = true := by
        intro hmem
        exact hused (hfirst.1 (by simpa using hmem))
      rw [assign_of_not_uses hused, if_neg hmem]
      rfl

end Instruction

namespace Content

variable {c d : Content} {s : Binding Float}

/-- The index has down a record under a key exactly if the record lists it as free. -/
theorem Indexed.mem_affectedBy_iff (h : c.Indexed) {k : Nat} {i : Instruction}
    (hi : c.records[k]? = some i) : k ∈ c.affectedBy s ↔ i.Uses s := by
  have hlist : freeAt c.records k = i.operation.freeParameters := by simp [freeAt, hi]
  rw [Content.mem_affectedBy_iff]
  constructor
  · rintro ⟨q, hq, slot, hnotes⟩
    have hfree : (slot, q) ∈ freeAt c.records k := (h.notes _ _).1 hnotes
    rw [hlist] at hfree
    exact ⟨(slot, q), hfree, hq⟩
  · rintro ⟨⟨slot, q⟩, hfree, hq⟩
    refine ⟨q, hq, slot, (h.notes _ _).2 ?_⟩
    rw [← hlist] at hfree
    exact hfree

theorem Indexed.assignList_eq (h : c.Indexed) (s : Binding Float) :
    Instruction.assignList s (c.affectedBy s) 0 c.records = c.records.mapM (·.assign s) := by
  refine Instruction.assignList_eq_mapM fun k i hi => ?_
  rw [Nat.zero_add]
  exact h.mem_affectedBy_iff hi

/-- The index has the phase down under a key exactly if the key occurs there. -/
theorem Indexed.affected_phase_iff (h : c.Indexed) :
    (c.table.affected (Assoc.keys s)).2 = true ↔ ∃ q ∈ Assoc.keys s, q ∈ c.phase.symbols := by
  rw [Content.affected_phase_iff]
  refine exists_congr fun q => and_congr_right fun _ => ?_
  rw [h.notes]
  exact ParamExpr.mem_parameters_iff

/-- Where indices are exact, an operation lists what is free in it. -/
theorem Everywhere.mem_freeParameters_iff (h : Everywhere Indexed c) {i : Instruction}
    (hi : i ∈ c.records) {slot : Nat} {p : Parameter} :
    (slot, p) ∈ i.operation.freeParameters ↔ i.operation.FreeAt p slot := by
  obtain ⟨k, hk⟩ := List.getElem?_of_mem hi
  have hlists := h.listsAt_iff_occursAt (p := p) (.record k slot)
  simpa [ListsAt, OccursAt, freeAt, hk] using hlists

theorem Indexed.assign_eq_ok_iff (h : c.Indexed) :
    c.assign s = .ok d ↔ c.table.checkIncoming s = .ok () ∧
      ∃ assigned, List.Forall₂ (fun i i' => i.assign s = .ok i') c.records assigned ∧
        c.reassigned s assigned = d := by
  rw [Content.assign_eq_ok_iff, h.assignList_eq]
  refine and_congr_right fun _ => exists_congr fun assigned => and_congr_left fun _ => ?_
  exact Checking.mapM_eq_ok_iff

theorem Indexed.phase_reassigned (h : c.Indexed) (l : List Instruction) :
    (c.reassigned s l).phase = c.phase.phaseAfter s := by
  unfold reassigned ParamExpr.phaseAfter
  by_cases hphase : ∃ q ∈ Assoc.keys s, q ∈ c.phase.symbols
  · rw [if_pos (h.affected_phase_iff.2 hphase), if_pos hphase]
  · rw [if_neg (mt h.affected_phase_iff.1 hphase), if_neg hphase]

/-- What an assignment makes of the data, the index left aside. -/
theorem Indexed.of_assign (h : c.Indexed) (hd : c.assign s = .ok d) :
    List.Forall₂ (fun i i' => i.assign s = .ok i') c.records d.records ∧
      d.phase = c.phase.phaseAfter s ∧ d.duration = c.duration := by
  obtain ⟨-, assigned, hassigned, rfl⟩ := h.assign_eq_ok_iff.1 hd
  rw [reassigned_records]
  refine ⟨hassigned, h.phase_reassigned assigned, ?_⟩
  obtain ⟨_, _, heq⟩ := c.exists_reassigned_eq s assigned
  rw [heq]

/-! ## Refusals -/

theorem assign_eq_error_iff {e : CircuitError} :
    c.assign s = .error e ↔ c.table.checkIncoming s = .error e ∨
      c.table.checkIncoming s = .ok () ∧
        Instruction.assignList s (c.affectedBy s) 0 c.records = .error e := by
  obtain ⟨qubits, clbits, records, table, phase, identifiers, duration⟩ := c
  simp only [Content.assign, affectedBy]
  rw [Checking.bind_eq_error_iff]
  refine or_congr_right ?_
  constructor
  · rintro ⟨⟨⟩, hcheck, h⟩
    refine ⟨hcheck, ?_⟩
    rcases Checking.bind_eq_error_iff.1 h with h | ⟨assigned, -, h⟩
    · exact h
    · split at h <;> cases h
  · rintro ⟨hcheck, h⟩
    exact ⟨(), hcheck, Checking.bind_eq_error_iff.2 (.inl h)⟩

/-- A refused assignment was refused by a check on its way. -/
theorem Everywhere.assign_eq_error (h : Everywhere Indexed c) {cause : CircuitError}
    (hrefused : c.assign s = .error cause) :
    ∃ e t, c.Assigns s e t ∧ e.table.checkIncoming t = .error cause := by
  induction h generalizing s with
  | @intro c hc hin ih =>
    rcases assign_eq_error_iff.1 hrefused with hcheck | ⟨-, hrecords⟩
    · exact ⟨c, s, .here c s, hcheck⟩
    · rw [hc.assignList_eq] at hrecords
      obtain ⟨i, hi, hrefused⟩ := Checking.exists_of_mapM_eq_error hrecords
      obtain ⟨k, hk⟩ := List.getElem?_of_mem hi
      by_cases hused : i.Uses s
      · rw [Instruction.assign_of_uses hused] at hrefused
        rcases Checking.bind_eq_error_iff.1 hrefused with hrefused | ⟨op, -, h⟩
        · -- the operation was refused for one of its circuits
          rw [Operation.assign_eq] at hrefused
          rcases Checking.bind_eq_error_iff.1 hrefused with hrefused | ⟨circuits, -, h⟩
          · obtain ⟨b, hb, hrefused⟩ := Checking.exists_of_mapM_eq_error hrefused
            obtain ⟨name, content, blocks⟩ := b
            have hinner : content.assign (i.operation.innerBinding s) = .error cause := by
              rcases Checking.bind_eq_error_iff.1 hrefused with h | ⟨d, -, h⟩
              · exact h
              · cases h
            obtain ⟨e, t, hassigns, hcheck⟩ := ih _ (mem_circuits_iff.2 ⟨i, hi, hb⟩) hinner
            refine ⟨e, t, .inside ((hc.mem_affectedBy_iff hk).2 hused) hk ?_ hassigns, hcheck⟩
            rw [Operation.innerBindings_eq]
            exact List.mem_map_of_mem hb
          · cases h
        · cases h
      · rw [Instruction.assign_of_not_uses hused] at hrefused
        cases hrefused

/-- Where an assignment answers, every check on its way passed. -/
theorem Assigns.checked {e : Content} {t : Binding Float} (h : c.Assigns s e t)
    (hd : c.assign s = .ok d) : e.table.checkIncoming t = .ok () := by
  induction h generalizing d with
  | here c s => exact (Content.assign_eq_ok_iff.1 hd).1
  | @inside c s k i b t e u hk hi hb _ ih =>
    obtain ⟨-, assigned, hassigned, -⟩ := Content.assign_eq_ok_iff.1 hd
    obtain ⟨hlen, hat⟩ := Instruction.assignList_eq_ok hassigned
    have hlt : k < assigned.length := hlen ▸ (List.getElem?_eq_some_iff.1 hi).1
    obtain ⟨op, -, ⟨-, hop⟩ | ⟨hnot, -⟩⟩ := hat k i _ hi (List.getElem?_eq_getElem hlt)
    · obtain ⟨b', -, hassign⟩ := Checking.exists_right (Operation.assign_circuits hop) hb
      exact ih (Circuit.assign_eq_ok_iff.1 hassign).1
    · exact absurd (by simpa using hk) hnot

end Content

end QuantumCircuit
