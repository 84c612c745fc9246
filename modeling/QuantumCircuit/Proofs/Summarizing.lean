import QuantumCircuit.Proofs.Decomposing
import QuantumCircuit.Proofs.Merging

/-!
# Operations made of circuits

A circuit that is made an operation becomes its definition, and its parameters in use become the
parameters of the operation. An assignment makes its replacements in both. A loop of the definition
may bind what a replacement brings in, so the operation may come to name more than is free in its
definition, but never less (`CustomOp.Made.standsFor`).

That is why a record can be passed over for its own parameters alone: where these hold no key, the
definition holds none (`CustomOp.StandsFor.assign_record`).
-/

namespace QuantumCircuit

/-- An operation made of a reached circuit, and perhaps assigned to since then. -/
inductive CustomOp.Made : CustomOp → Prop
  | instruction {source : Circuit} {op : CustomOp} :
      source.Reachable .any → source.toInstruction = .ok op → Made op
  | gate {source : Circuit} {op : CustomOp} :
      source.Reachable .any → source.toGate = .ok op → Made op
  | assign {op op' : CustomOp} (s : Binding Float) : Made op → op.assign s = .ok op' → Made op'

/-- That the circuit is the definition of the operation, which names all its parameters. -/
structure CustomOp.StandsFor (op : CustomOp) (source : Circuit) : Prop where
  definition : op.definition = some source
  wrappable : source.Wrappable .any
  names : ∀ p ∈ source.parameters, ∃ e ∈ op.params, p ∈ e.symbols

namespace Circuit

variable {source : Circuit} {op : CustomOp}

theorem toInstruction_standsFor (hsource : source.Reachable .any)
    (h : source.toInstruction = .ok op) : op.StandsFor source := by
  obtain ⟨hclosed, hidentifiers, rfl⟩ := toInstruction_eq_ok_iff.1 h
  refine ⟨rfl, ⟨hsource, hclosed, hidentifiers⟩, fun p hp => ⟨.sym p, ?_, List.mem_singleton.2 rfl⟩⟩
  exact List.mem_map_of_mem hp

theorem toGate_standsFor (hsource : source.Reachable .any) (h : source.toGate = .ok op) :
    op.StandsFor source := by
  obtain ⟨-, -, instruction, hinstruction, rfl⟩ := toGate_eq_ok_iff.1 h
  obtain ⟨hdefinition, hwrappable, hnames⟩ := toInstruction_standsFor hsource hinstruction
  exact ⟨hdefinition, hwrappable, hnames⟩

/-- A reached circuit without open blocks is so after an assignment. -/
theorem Reachable.assign {c : Circuit} {s : Binding Float} {d : Content} (hc : c.Reachable .any)
    (hclosed : c.blocks = []) (hd : c.content.assign s = .ok d) :
    Reachable .any { c with content := d } := by
  have hbuilt : d.Built .any :=
    .call (.assign s false) hc.built trivial (fun i hi => absurd hi List.not_mem_nil)
      (Content.assign_leaves hd)
  obtain ⟨name, content, blocks⟩ := c
  obtain rfl : blocks = [] := hclosed
  exact .ofStore name hbuilt

/-- An assignment leaves a circuit that can stand as an operation so. -/
theorem Wrappable.assign {source' : Circuit} {s : Binding Float} (h : source.Wrappable .any)
    (hassign : source.assign s = .ok source') : source'.Wrappable .any := by
  obtain ⟨hcontent, hname, hblocks⟩ := assign_eq_ok_iff.1 hassign
  obtain ⟨-, -, hidentifiers⟩ := Content.assign_frame hcontent
  have hreach := h.reachable.assign h.closed hcontent
  obtain ⟨name, content, blocks⟩ := source'
  obtain rfl : name = source.name := hname
  obtain rfl : blocks = source.blocks := hblocks
  exact ⟨hreach, h.closed, hidentifiers ▸ h.identifiers⟩

end Circuit

namespace CustomOp

variable {op op' : CustomOp} {source : Circuit} {s : Binding Float}

theorem assign_eq_ok_of_definition (h : op.assign s = .ok op')
    (hdefinition : op.definition = some source) :
    ∃ source', source.assign s = .ok source' ∧
      op' = { op with params := op.params.map (·.subst s), definition := some source' } := by
  obtain ⟨definition, hassigned, rfl⟩ := assign_eq_ok h
  rw [hdefinition] at hassigned
  obtain ⟨source', hsource', hassigned⟩ := Checking.bind_eq_ok_iff.1 hassigned
  cases hassigned
  exact ⟨source', hsource', rfl⟩

/-- What is free in the definition afterwards is in the replacement of a parameter that was free
there, and so the operation had it replaced too. -/
theorem StandsFor.assign (h : op.StandsFor source) (hop : op.assign s = .ok op') :
    ∃ source', source.assign s = .ok source' ∧ op'.StandsFor source' := by
  obtain ⟨source', hassign, rfl⟩ := assign_eq_ok_of_definition hop h.definition
  refine ⟨source', hassign, rfl, h.wrappable.assign hassign, fun p hp => ?_⟩
  have hcontent := (Circuit.assign_eq_ok_iff.1 hassign).1
  have hindexed := h.wrappable.reachable.built.everywhere_any Content.indexed_invariant
  have hleft := hindexed.indexed_assign hcontent
  obtain ⟨q, hfree, hp⟩ := (hindexed.free_assign_iff hcontent).1 (hleft.mem_parameters_iff.1 hp)
  obtain ⟨e, he, hq⟩ := h.names q (hindexed.mem_parameters_iff.2 hfree.free)
  exact ⟨e.subst s, List.mem_map_of_mem he, ParamExpr.mem_symbols_subst_iff.2 ⟨q, hq, hp⟩⟩

/-- An operation made of a circuit goes on to name all that is free in its definition. -/
theorem Made.standsFor (h : op.Made) : ∃ source, op.StandsFor source := by
  induction h with
  | instruction hsource hop => exact ⟨_, Circuit.toInstruction_standsFor hsource hop⟩
  | gate hsource hop => exact ⟨_, Circuit.toGate_standsFor hsource hop⟩
  | assign s _ hassign ih =>
    obtain ⟨source, hsource⟩ := ih
    obtain ⟨source', -, hsource'⟩ := hsource.assign hassign
    exact ⟨source', hsource'⟩

end CustomOp

/-! ## Circuits apart from an assignment -/

/-- That the records of `d` are those of `c` with the replacements made, among the same bits and
identifiers, and that `d` uses no parameter that `c` does not. The phases are left open. -/
structure Circuit.AssignsTo (s : Binding Float) (c d : Circuit) : Prop where
  qubits : d.content.qubits = c.content.qubits
  clbits : d.content.clbits = c.content.clbits
  identifiers : d.content.identifiers = c.content.identifiers
  records : List.Forall₂ (fun i i' => i.assign s = .ok i') c.content.records d.content.records
  parameters : ∀ p, d.content.table.contains p → c.content.table.contains p

namespace Circuit.AssignsTo

variable {s : Binding Float} {c d : Circuit}

/-- An assignment of numbers makes it so. -/
theorem of_assign (hc : Content.Everywhere Content.Indexed c.content) (hs : s.Numeric)
    (hd : c.content.assign s = .ok d.content) : c.AssignsTo s d := by
  obtain ⟨hqubits, hclbits, hidentifiers⟩ := Content.assign_frame hd
  refine ⟨hqubits, hclbits, hidentifiers, (hc.here.of_assign hd).1, fun p hp => ?_⟩
  have hlisted := (hc.indexed_assign hd).here.wellFormed.mem_sorted_iff.2 hp
  exact hc.here.wellFormed.mem_sorted_iff.1 ((hc.mem_parameters_assign_iff hs hd).1 hlisted).1

/-- Where no key is in use there is nothing to replace. -/
theorem refl (hc : c.content.Indexed) (h : ∀ p, c.content.table.contains p → p ∉ Assoc.keys s) :
    c.AssignsTo s c := by
  refine ⟨rfl, rfl, rfl, List.forall₂_same.2 fun i hi => ?_, fun p hp => hp⟩
  refine Instruction.assign_of_not_uses ?_
  rintro ⟨v, hv, hkey⟩
  exact h v.2 (hc.contains_of_record hi hv) hkey

end Circuit.AssignsTo

/-- The record of an operation that stands for a circuit goes with the definition: if it holds a
key, the definition is assigned, and if it holds none, there is none in the definition either. -/
theorem CustomOp.StandsFor.assign_record {s : Binding Float} {op : CustomOp} {source : Circuit}
    {i i' : Instruction} (h : op.StandsFor source) (hs : s.Numeric)
    (hop : i.operation = .custom op) (hi : i.assign s = .ok i') :
    ∃ op' source', i' = { i with operation := .custom op' } ∧ op'.StandsFor source' ∧
      source.AssignsTo s source' := by
  obtain ⟨operation, -, hassign, rfl⟩ | ⟨hused, rfl⟩ := Instruction.assign_cases hi
  · rw [hop] at hassign
    obtain ⟨op', hop', hassign⟩ := Checking.bind_eq_ok_iff.1 hassign
    cases hassign
    obtain ⟨source', hsource', hstands⟩ := h.assign hop'
    have hindexed := h.wrappable.reachable.built.everywhere_any Content.indexed_invariant
    exact ⟨op', source', rfl, hstands,
      .of_assign hindexed hs (Circuit.assign_eq_ok_iff.1 hsource').1⟩
  · refine ⟨op, source, ?_, h, .refl h.wrappable.indexed fun p hp hkey => hused ?_⟩
    · obtain ⟨operation, qubits, clbits, label⟩ := i'
      exact congrArg (Instruction.mk · qubits clbits label) hop
    · obtain ⟨e, he, hq⟩ := h.names p (h.wrappable.indexed.wellFormed.mem_sorted_iff.2 hp)
      obtain ⟨slot, hslot⟩ := List.getElem?_of_mem he
      refine ⟨(slot, p), Operation.mem_freeParameters_iff.2 (.inl ⟨e, ?_, hq⟩), hkey⟩
      rw [hop]
      exact hslot

end QuantumCircuit
