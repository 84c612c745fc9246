import QuantumCircuit.Proofs.Fitting
import QuantumCircuit.Proofs.Occurrence
import QuantumCircuit.Proofs.Bodies

/-!
# What renaming leaves as it was

A renamed circuit has the bits and the phase of the old one, its identifiers sent
through the renaming, and record by record the renamed operations
(`Circuit.rename_eq_ok`). Renaming reaches identifiers only, so at every depth it
brings no parameter in (`Circuit.parameters_rename`).
-/

namespace QuantumCircuit

/-- The record with its operation renamed. -/
def Instruction.Renamed (m : Renaming) (i i' : Instruction) : Prop :=
  ∃ op, i.operation.rename m = .ok op ∧ i' = { i with operation := op }

namespace Content

variable {c d : Content}

/-- Identifiers that come in one after another are listed in that order. -/
theorem each_addIdentifier_eq_ok {f : Identifier → Identifier}
    {l : List (Identifier × IdentifierKind)}
    (h : Edit.each (fun (i, kind) => addIdentifier (f i) kind) l c = .ok () d) :
    ∃ t, d = { c with identifiers := t } ∧
      t.toList = c.identifiers.toList ++ l.map fun e => (f e.1, e.2) := by
  induction l generalizing c with
  | nil =>
    cases h
    exact ⟨d.identifiers, by cases d; rfl, by simp⟩
  | cons a rest ih =>
    obtain ⟨_, u, ha, h⟩ := Edit.bind_eq_ok_iff.1 h
    obtain ⟨hcheck, rfl⟩ := addIdentifier_eq_ok_iff.1 ha
    obtain ⟨t, rfl, ht⟩ := ih h
    refine ⟨t, rfl, ht.trans ?_⟩
    rw [IdentifierTable.toList_insert (get?_eq_none_of_checkIdentifier hcheck), List.map_cons,
      List.append_assoc]
    rfl

end Content

theorem Instruction.renameList_eq_ok {m : Renaming} {records : List Instruction}
    {c d : Content} (h : Instruction.renameList m records c = .ok () d) :
    d.qubits = c.qubits ∧ d.clbits = c.clbits ∧ d.phase = c.phase ∧
      d.identifiers = c.identifiers ∧
      ∃ renamed, d.records = c.records ++ renamed ∧
        List.Forall₂ (Instruction.Renamed m) records renamed := by
  induction records generalizing c with
  | nil =>
    simp only [Instruction.renameList] at h
    cases h
    exact ⟨rfl, rfl, rfl, rfl, [], by simp, .nil⟩
  | cons i rest ih =>
    obtain ⟨operation, qubits, clbits, label⟩ := i
    simp only [Instruction.renameList] at h
    obtain ⟨op, hrename, h⟩ := Edit.ofExcept_bind_eq_ok_iff.1 h
    obtain ⟨_, v, hpush, h⟩ := Edit.bind_eq_ok_iff.1 h
    obtain ⟨-, rfl⟩ := Content.push_eq_ok_iff.1 hpush
    obtain ⟨hq, hc, hphase, hids, renamed, hrecords, hall⟩ := ih h
    refine ⟨hq, hc, hphase, hids, ⟨op, qubits, clbits, label⟩ :: renamed, ?_, ?_⟩
    · rw [hrecords]
      simp [Content.snoc]
    · exact .cons ⟨op, hrename, rfl⟩ hall

/-- What a renamed circuit is made of. -/
theorem Circuit.rename_eq_ok {m : Renaming} {c d : Circuit} (h : c.rename m = .ok d) :
    d.content.qubits = c.content.qubits ∧ d.content.clbits = c.content.clbits ∧
      d.content.phase = c.content.phase ∧
      d.content.identifiers.toList =
        c.content.identifiers.toList.map (fun e => (m.apply e.1, e.2)) ∧
      List.Forall₂ (Instruction.Renamed m) c.content.records d.content.records := by
  obtain ⟨name, ⟨qubits, clbits, records, table, phase, identifiers, duration⟩, blocks⟩ := c
  simp only [Circuit.rename] at h
  obtain ⟨content, hcontent, h⟩ := Checking.bind_eq_ok_iff.1 h
  cases h
  rw [Edit.finalState_eq_ok_iff, Edit.bind_eq_ok_iff] at hcontent
  obtain ⟨_, u, hids, h⟩ := hcontent
  obtain ⟨t, rfl, ht⟩ := Content.each_addIdentifier_eq_ok hids
  obtain ⟨hq, hc, hphase, heq, renamed, hrecords, hall⟩ := Instruction.renameList_eq_ok h
  refine ⟨hq, hc, hphase, ?_, ?_⟩
  · rw [heq]
    exact ht
  · rw [hrecords]
    exact hall

/-! ## Control flow around other bodies -/

namespace ControlFlow

variable {flow flow' flow'' : ControlFlow}

/-- The same control flow, but for what it reads itself, around related bodies. -/
structure Refitted (R : Circuit → Circuit → Prop) (flow flow' : ControlFlow) : Prop where
  bodies : List.Forall₂ R flow.bodies flow'.bodies
  loopParameter : flow'.loopParameter? = flow.loopParameter?
  jumpWidth : flow'.jumpWidth? = flow.jumpWidth?

theorem Alike.refitted {R : Circuit → Circuit → Prop} (h : Alike flow flow')
    (hR : ∀ b ∈ flow.bodies, R b b) : Refitted R flow flow' := by
  refine ⟨by rw [h.bodies]; exact List.forall₂_same.2 hR, h.loopParameter?, ?_⟩
  cases h <;> rfl

theorem loopParameter?_withBodies (bodies : List Circuit) :
    (flow.withBodies bodies).loopParameter? = flow.loopParameter? := by
  cases flow with
  | ifElse c t f => cases f <;> rfl
  | whileLoop c b | forLoop i p b | switchCase t arms | box b d | jump j q c => rfl

theorem jumpWidth?_withBodies (bodies : List Circuit) :
    (flow.withBodies bodies).jumpWidth? = flow.jumpWidth? := by
  cases flow with
  | ifElse c t f => cases f <;> rfl
  | whileLoop c b | forLoop i p b | switchCase t arms | box b d | jump j q c => rfl

theorem ownIdentifiers_withBodies (bodies : List Circuit) :
    (flow.withBodies bodies).ownIdentifiers = flow.ownIdentifiers := by
  cases flow with
  | ifElse c t f => cases f <;> rfl
  | box b d => cases d <;> rfl
  | whileLoop c b | forLoop i p b | switchCase t arms | jump j q c => rfl

theorem classicalUse_withBodies (bodies : List Circuit) :
    (flow.withBodies bodies).classicalUse = flow.classicalUse := by
  cases flow with
  | ifElse c t f => cases f <;> rfl
  | whileLoop c b | forLoop i p b | switchCase t arms | box b d | jump j q c => rfl

/-- New bodies change nothing else. -/
theorem eq_withBodies_of_replaceBodies {bodies : List Circuit}
    (h : flow.replaceBodies bodies = .ok flow') :
    flow' = flow.withBodies bodies ∨ flow' = flow := by
  unfold replaceBodies at h
  split at h
  · cases h
  · split at h
    · cases h
      exact .inr rfl
    · obtain ⟨-, h⟩ := Checking.seq_eq_ok_iff.1 h
      cases h
      exact .inl rfl

theorem refitted_of_replaceBodies {R : Circuit → Circuit → Prop} {bodies : List Circuit}
    (hmapped : Alike flow flow') (h : flow'.replaceBodies bodies = .ok flow'')
    (hbodies : List.Forall₂ R flow.bodies bodies) : Refitted R flow flow'' := by
  refine ⟨replaceBodies_eq_ok h ▸ hbodies, ?_, ?_⟩
  · rw [← hmapped.loopParameter?]
    rcases eq_withBodies_of_replaceBodies h with rfl | rfl
    · exact loopParameter?_withBodies bodies
    · rfl
  · have hjump : flow'.jumpWidth? = flow.jumpWidth? := by cases hmapped <;> rfl
    rw [← hjump]
    rcases eq_withBodies_of_replaceBodies h with rfl | rfl
    · exact jumpWidth?_withBodies bodies
    · rfl

/-- Bodies that bring no parameter in leave the operation with no new one. -/
theorem Refitted.freeParameters {R : Circuit → Circuit → Prop} (h : Refitted R flow flow')
    (hR : ∀ b ∈ flow.bodies, ∀ b', R b b' → ∀ p ∈ b'.parameters, p ∈ b.parameters) :
    ∀ u ∈ (Operation.control flow').freeParameters,
      u ∈ (Operation.control flow).freeParameters := by
  rintro ⟨slot, p⟩ hu
  rw [Operation.mem_freeParameters_iff] at hu ⊢
  rcases hu with ⟨e, he, -⟩ | ⟨_, b', hflow, hb', hne, hp⟩
  · exact absurd he (by simp [Operation.params])
  · cases hflow
    obtain ⟨hlt', rfl⟩ := List.getElem?_eq_some_iff.1 hb'
    have hlt : slot < flow.bodies.length := h.bodies.length_eq ▸ hlt'
    have hrelated : R flow.bodies[slot] flow'.bodies[slot] := by
      simpa using h.bodies.get (i := slot) hlt hlt'
    refine .inr ⟨flow, flow.bodies[slot], rfl, List.getElem?_eq_getElem hlt, ?_, ?_⟩
    · exact h.loopParameter ▸ hne
    · exact hR _ (List.getElem_mem hlt) _ hrelated p hp

end ControlFlow

/-! ## No parameter comes in -/

/-- Renaming an operation brings no parameter in, if it brings none into the bodies. -/
theorem Operation.freeParameters_rename {m : Renaming} {op op' : Operation}
    (h : op.rename m = .ok op')
    (inner : ∀ b ∈ op.circuits, ∀ b', b.rename m = .ok b' → ∀ p ∈ b'.parameters, p ∈ b.parameters) :
    ∀ u ∈ op'.freeParameters, u ∈ op.freeParameters := by
  cases op with
  | control flow =>
    simp only [Operation.rename] at h
    obtain ⟨mapped, hmapped, h⟩ := Checking.bind_eq_ok_iff.1 h
    have halike := ControlFlow.mapLeaves_eq_ok hmapped
    -- bodies are only renamed if the renaming changes something
    split at h
    · obtain ⟨bodies, hbodies, h⟩ := Checking.bind_eq_ok_iff.1 h
      obtain ⟨flow', hflow, h⟩ := Checking.bind_eq_ok_iff.1 h
      cases h
      exact (ControlFlow.refitted_of_replaceBodies halike hflow
        (ControlFlow.renameBodies_eq_ok hbodies)).freeParameters inner
    · cases h
      refine (halike.refitted (R := (· = ·)) fun _ _ => rfl).freeParameters ?_
      rintro b - _ rfl p hp
      exact hp
  | store a =>
    obtain ⟨a', -, h⟩ := Checking.bind_eq_ok_iff.1 h
    cases h
    exact fun u hu => hu
  | delay d =>
    obtain ⟨d', -, h⟩ := Checking.bind_eq_ok_iff.1 h
    cases h
    exact fun u hu => hu
  | gate g | custom o | measure | reset | barrier w =>
    cases h
    exact fun u hu => hu

namespace Content

/-- What is in use is what the phase or a record lists. -/
theorem Indexed.mem_parameters_iff {c : Content} (h : c.Indexed) {p : Parameter} :
    p ∈ c.parameters ↔ ∃ site, c.ListsAt p site := by
  rw [parameters, h.wellFormed.mem_sorted_iff, h.wellFormed.contains_iff]
  exact exists_congr fun site => h.notes site p

end Content

/-- Renaming brings no parameter into a circuit. -/
theorem Circuit.parameters_rename {A : Policy} {m : Renaming} {c d : Circuit}
    (hc : c.content.Built A) (h : c.rename m = .ok d) : ∀ p ∈ d.parameters, p ∈ c.parameters := by
  have heverywhere := hc.everywhere_any Content.indexed_invariant
  -- the index is right at every depth, and the induction is on the depth
  generalize hcontent : c.content = content at heverywhere
  induction heverywhere generalizing c d with
  | @intro content hindexed _ ih =>
    subst hcontent
    have hd := (Circuit.rename_built hc h).everywhere_any Content.indexed_invariant |>.here
    obtain ⟨-, -, hphase, -, hrecords⟩ := Circuit.rename_eq_ok h
    intro p hp
    obtain ⟨site, hsite⟩ := hd.mem_parameters_iff.1 hp
    refine hindexed.mem_parameters_iff.2 ⟨site, ?_⟩
    cases site with
    | phase =>
      simp only [Content.ListsAt] at hsite ⊢
      exact hphase ▸ hsite
    | record k slot =>
      simp only [Content.ListsAt, Content.freeAt] at hsite ⊢
      cases hk' : d.content.records[k]? with
      | none => simp [hk'] at hsite
      | some i' =>
        obtain ⟨hlt', rfl⟩ := List.getElem?_eq_some_iff.1 hk'
        have hlt : k < c.content.records.length := hrecords.length_eq ▸ hlt'
        obtain ⟨op, hop, heq⟩ : Instruction.Renamed m c.content.records[k]
            d.content.records[k] := by
          simpa using hrecords.get (i := k) hlt hlt'
        rw [hk', heq] at hsite
        rw [List.getElem?_eq_getElem hlt]
        have hmem := List.getElem_mem hlt
        refine Operation.freeParameters_rename hop (fun b hb b' hb' => ?_) _ hsite
        have hinside := Content.mem_circuits_iff.2 ⟨_, hmem, hb⟩
        exact ih b hinside (hc.inside hinside) hb' rfl

end QuantumCircuit
